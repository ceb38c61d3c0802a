import VersionedTree.Qualifier.Arguments

/-!
# Small qualifiers

Qualifiers that exercise the compiler without any bundled one: some expand in the plainest way, some
tell what the context holds, some come back as invocations, and one never settles.

A qualifier that comes back as an invocation is given the tag it comes back under.
-/

namespace VersionedTree.Sample

/-- A version as first argument, known or not, and the forms after it. -/
def versionAndForms : List Node → Except QualifierError (Version × List Node)
  | [] => .error (.invalidArguments "missing version")
  | head :: forms =>
    match Version.ofNode? head with
    | some v => .ok (v, forms)
    | none => .error (.invalidArguments "version must be a scalar")

/-- `when(v, forms...)`: the forms for the version `v` alone. -/
def when (ctx : Context) (args : List Node) : Except QualifierError Expansion := do
  let (v, forms) ← versionAndForms args
  return .includeIf (ctx.isAt v) forms

/-- `since(v, forms...)`: the forms for `v` and every later version. -/
def since (ctx : Context) (args : List Node) : Except QualifierError Expansion := do
  let (v, forms) ← versionAndForms args
  match ctx.position? v with
  | some position => return .includeIf (decide (position ≤ ctx.position)) forms
  | none => .error (.unknownVersion v ctx.known.toList)

/-- The arguments, for every version. -/
def splice (_ : Context) (args : List Node) : Except QualifierError Expansion := .ok (.forms args)

/-- Nothing, for every version. -/
def drop (_ : Context) (_ : List Node) : Except QualifierError Expansion := .ok .delete

/-- An invocation with one more argument. Under its own tag it never settles. -/
def grow (tag : Tag) (_ : Context) (args : List Node) : Except QualifierError Expansion :=
  .ok (.single (.invocation tag (args ++ [.nil])))

/-- The arguments as one sequence. -/
def wrap (_ : Context) (args : List Node) : Except QualifierError Expansion :=
  .ok (.single (.sequence args))

/-- The name of the version at hand. -/
def echo (ctx : Context) (_ : List Node) : Except QualifierError Expansion :=
  .ok (.single ctx.version.toNode)

/-- The place of the version at hand. -/
def position (ctx : Context) (_ : List Node) : Except QualifierError Expansion :=
  .ok (.single (.int (Int64.ofNat ctx.position)))

/-- The selector, or a dash where there is none. -/
def selector (ctx : Context) (_ : List Node) : Except QualifierError Expansion :=
  .ok (.single (.str (ctx.selector.getD "-")))

/-- The names of the known versions as one sequence. -/
def known (ctx : Context) (_ : List Node) : Except QualifierError Expansion :=
  .ok (.single (.sequence (ctx.known.toList.map Version.toNode)))

/-- The same invocation again: stable at once under its own tag. -/
def self (tag : Tag) (_ : Context) (args : List Node) : Except QualifierError Expansion :=
  .ok (.single (.invocation tag args))

/-- The same invocation two times. -/
def twice (tag : Tag) (_ : Context) (args : List Node) : Except QualifierError Expansion :=
  .ok (.forms [.invocation tag args, .invocation tag args])

/-- The same invocation with the first argument moved to the end. -/
def rotate (tag : Tag) (_ : Context) (args : List Node) : Except QualifierError Expansion :=
  .ok (.single (.invocation tag (args.drop 1 ++ args.take 1)))

/-- `nest(n, x)`: `x` after `n` more expansions. -/
def nest (tag : Tag) (_ : Context) : List Node → Except QualifierError Expansion
  | [.scalar (.int n), x] =>
    if n = 0 then .ok (.single x)
    else .ok (.single (.invocation tag [.int (n - 1), x]))
  | _ => .error (.invalidArguments "nest(n, x)")

/-- `call(tag, args...)`: the invocation of that tag with those arguments. -/
def call (_ : Context) : List Node → Except QualifierError Expansion
  | head :: args =>
    match head.text? with
    | some name => .ok (.single (.invocation ⟨name⟩ args))
    | none => .error (.invalidArguments "call(tag, args...)")
  | [] => .error (.invalidArguments "call(tag, args...)")

/-- An error that tells the number of arguments and the version. -/
def fail (ctx : Context) (args : List Node) : Except QualifierError Expansion :=
  .error (.invalidArguments ("fail/" ++ toString args.length ++ " at " ++ ctx.version.name))

/-- `fail-at(v, forms...)`: an error at the version `v`, and the forms elsewhere. -/
def failAt (ctx : Context) : List Node → Except QualifierError Expansion
  | head :: forms =>
    if (Version.ofNode? head).any ctx.isAt then
      .error (.invalidArguments ("fail-at/" ++ toString forms.length))
    else .ok (.forms forms)
  | [] => .ok .delete

/-- A registry of `when`, `since`, `splice`, `drop` and `grow`. -/
def registry : Registry :=
  Table.ofList [(⟨"when"⟩, .silent when), (⟨"since"⟩, .silent since), (⟨"splice"⟩, .silent splice),
    (⟨"drop"⟩, .silent drop), (⟨"grow"⟩, .silent (grow ⟨"grow"⟩))]

end VersionedTree.Sample
