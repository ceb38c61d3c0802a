import VersionedTree.Proofs.Walking

/-!
# Depth-first evaluation

What an invocation means, apart from the passes by which it is resolved: it is expanded once, and
the forms that come back are evaluated in place, one after the other. Where qualifiers return
arguments or what is inside of arguments this comes to an end, since what an invocation expands into
is less deep than the invocation.

The invocations that an evaluation meets form a tree. Its root has expansion depth zero, and the
invocations among the forms of an invocation are one level below it.

## What is proved

* `Registry.depth_lt_of_expand` — forms are less deep than the invocation that they come from.
* `Registry.evaluate_eq` — a node evaluates to what its expansion evaluates to.
* `Registry.expandsIn_of_evaluateForms` — where an evaluation succeeds, every invocation that it
  meets expands.
-/

namespace VersionedTree

/-- Forms made of nodes hold these nodes. -/
theorem Form.filterMap_node?_map_node (nodes : List Node) :
    (nodes.map Form.node).filterMap Form.node? = nodes := by
  rw [List.filterMap_map]
  exact List.filterMap_some

theorem Form.mem_filterMap_node? {forms : List Form} {n : Node} :
    n ∈ forms.filterMap Form.node? ↔ .node n ∈ forms := by
  rw [List.mem_filterMap]
  constructor
  · rintro ⟨f, hf, hfn⟩
    cases f with
    | node m =>
      cases hfn
      exact hf
    | deletion => cases hfn
  · intro h
    exact ⟨_, h, rfl⟩

namespace Registry

variable {r : Registry} {ctx : Context}

/-- One expansion: what the qualifier gives for an invocation. Other nodes stand for themselves. -/
def expand (r : Registry) (ctx : Context) : Node → Except ResolveError Expansion
  | .invocation tag args =>
    match r.get? tag with
    | none => .error (.unknownQualifier tag ctx.version)
    | some q => (q ctx args).result.mapError (.qualifier tag ctx.version)
  | n => .ok (.single n)

/-- What an invocation expands into comes from a qualifier. -/
theorem exists_of_expand {tag : Tag} {args nodes : List Node}
    (h : r.expand ctx (.invocation tag args) = .ok (.forms nodes)) :
    ∃ q, r.get? tag = some q ∧ (q ctx args).result = .ok (.forms nodes) := by
  rw [expand] at h
  cases hq : r.get? tag with
  | none =>
    rw [hq] at h
    cases h
  | some q =>
    rw [hq] at h
    exact ⟨q, rfl, Outcome.mapError_eq_ok_iff.1 h⟩

/-- A node that is no invocation stands for itself. -/
theorem expand_of_not_isInvocation {n : Node} (h : n.isInvocation = false) :
    r.expand ctx n = .ok (.single n) := by
  cases n with
  | invocation tag args => cases h
  | _ => rfl

/-- Forms are less deep than the invocation that they come from. -/
theorem depth_lt_of_expand (h : r.Inward) {tag : Tag} {args nodes : List Node}
    (hexpand : r.expand ctx (.invocation tag args) = .ok (.forms nodes)) {n : Node}
    (hn : n ∈ nodes) : n.depth < (Node.invocation tag args).depth := by
  obtain ⟨q, hq, hnodes⟩ := exists_of_expand hexpand
  obtain ⟨a, ha, hna⟩ := h tag q hq ctx args nodes hnodes n hn
  calc n.depth ≤ a.depth := Node.depth_le_of_mem_subnodes hna
    _ < (Node.invocation tag args).depth := Node.depth_lt_of_mem_parts ha

/-! ### Evaluation -/

/-- The depth-first evaluation of a node: an invocation is expanded once, and every form that comes
back is evaluated in place. -/
def evaluate (h : r.Inward) (ctx : Context) : Node → Except ResolveError (List Form)
  | .invocation tag args =>
    match hexpand : r.expand ctx (.invocation tag args) with
    | .error e => .error e
    | .ok .delete => .ok [.deletion]
    | .ok (.forms nodes) => do
      let evaluated ← nodes.attach.mapM fun n =>
        have _ := depth_lt_of_expand h hexpand n.property
        evaluate h ctx n.val
      return evaluated.flatten
  | n => .ok [.node n]
termination_by n => n.depth

/-- A deletion stays. -/
def evaluateForm (h : r.Inward) (ctx : Context) : Form → Except ResolveError (List Form)
  | .node n => evaluate h ctx n
  | .deletion => .ok [.deletion]

/-- Forms are evaluated one after the other. -/
def evaluateForms (h : r.Inward) (ctx : Context) (forms : List Form) :
    Except ResolveError (List Form) := do
  let evaluated ← forms.mapM (evaluateForm h ctx)
  return evaluated.flatten

@[simp]
theorem evaluateForms_nil (h : r.Inward) : evaluateForms h ctx [] = pure [] := rfl

theorem evaluateForms_cons (h : r.Inward) (f : Form) (forms : List Form) :
    evaluateForms h ctx (f :: forms) = do
      let first ← evaluateForm h ctx f
      let rest ← evaluateForms h ctx forms
      return first ++ rest := by
  unfold evaluateForms
  rw [List.mapM_cons]
  simp only [bind_assoc, pure_bind, List.flatten_cons]

@[simp]
theorem evaluateForms_singleton (h : r.Inward) (f : Form) :
    evaluateForms h ctx [f] = evaluateForm h ctx f := by
  rw [evaluateForms_cons, evaluateForms_nil]
  simp only [pure_bind, List.append_nil, bind_pure]

theorem evaluateForms_append (h : r.Inward) (forms forms' : List Form) :
    evaluateForms h ctx (forms ++ forms') = do
      let first ← evaluateForms h ctx forms
      let rest ← evaluateForms h ctx forms'
      return first ++ rest := by
  induction forms with
  | nil =>
    rw [List.nil_append, evaluateForms_nil]
    simp only [pure_bind, List.nil_append, bind_pure]
  | cons f forms ih =>
    rw [List.cons_append, evaluateForms_cons, evaluateForms_cons, ih]
    simp only [bind_assoc, pure_bind, List.append_assoc]

/-- A node that is no invocation evaluates to itself. -/
theorem evaluate_of_not_isInvocation (h : r.Inward) {n : Node} (hn : n.isInvocation = false) :
    evaluate h ctx n = .ok [.node n] := by
  cases n with
  | invocation tag args => cases hn
  | _ => simp [evaluate]

/-- A node evaluates to what its expansion evaluates to. -/
theorem evaluate_eq (h : r.Inward) (n : Node) :
    evaluate h ctx n = r.expand ctx n >>= fun e => evaluateForms h ctx e.asForms := by
  cases hi : n.isInvocation with
  | false =>
    rw [evaluate_of_not_isInvocation h hi, expand_of_not_isInvocation hi]
    show _ = evaluateForms h ctx [.node n]
    rw [evaluateForms_singleton, evaluateForm, evaluate_of_not_isInvocation h hi]
  | true =>
    cases n with
    | invocation tag args =>
      rw [evaluate]
      split
      · rename_i e hexpand
        rw [hexpand]
        rfl
      · rename_i hexpand
        rw [hexpand]
        rfl
      · rename_i nodes hexpand
        have hnodes : (nodes.attach.mapM fun n => evaluate h ctx n.val) =
            nodes.mapM (evaluate h ctx) := by
          rw [List.mapM_subtype fun _ _ => rfl, List.unattach_attach]
        show ((nodes.attach.mapM fun n => evaluate h ctx n.val) >>= _) = _
        rw [hnodes, hexpand]
        show _ = evaluateForms h ctx (nodes.map .node)
        rw [evaluateForms, List.mapM_map]
        rfl
    | _ => cases hi

/-- A form evaluates to what its expansion evaluates to. -/
theorem evaluateForm_node (h : r.Inward) (n : Node) :
    evaluateForm h ctx (.node n) = r.expand ctx n >>= fun e => evaluateForms h ctx e.asForms :=
  evaluate_eq h n

/-- Where forms evaluate, each of their nodes expands, and its expansion evaluates. -/
theorem exists_expand_of_evaluateForms (h : r.Inward) {forms fs : List Form} {n : Node}
    (hevaluate : evaluateForms h ctx forms = .ok fs) (hn : .node n ∈ forms) :
    ∃ e, r.expand ctx n = .ok e ∧ ∃ fs', evaluateForms h ctx e.asForms = .ok fs' := by
  obtain ⟨evaluated, hforms, -⟩ := Outcome.bind_eq_ok_iff.1 hevaluate
  obtain ⟨fs', hfs'⟩ := Outcome.exists_mapM_eq_ok_iff.1 ⟨evaluated, hforms⟩ _ hn
  rw [evaluateForm_node] at hfs'
  obtain ⟨e, he, hfs'⟩ := Outcome.bind_eq_ok_iff.1 hfs'
  exact ⟨e, he, fs', hfs'⟩

/-! ### The invocations that an evaluation meets -/

/-- The invocations that the evaluation of a node meets at an expansion depth, from left to right. A
failure has nothing below it. -/
def invocationsAt (r : Registry) (ctx : Context) : (depth : Nat) → Node → List Node
  | 0, n => if n.isInvocation then [n] else []
  | depth + 1, n =>
    if n.isInvocation then
      match r.expand ctx n with
      | .ok (.forms nodes) => nodes.flatMap (r.invocationsAt ctx depth)
      | _ => []
    else []

/-- The invocations below a list of forms. -/
def invocationsIn (r : Registry) (ctx : Context) (depth : Nat) (forms : List Form) : List Node :=
  (forms.filterMap Form.node?).flatMap (r.invocationsAt ctx depth)

/-- No invocation at an expansion depth below a node fails. -/
def ExpandsAt (r : Registry) (ctx : Context) (depth : Nat) (n : Node) : Prop :=
  ∀ i ∈ r.invocationsAt ctx depth n, ∃ e, r.expand ctx i = .ok e

/-- No invocation at an expansion depth below a list of forms fails. -/
def ExpandsIn (r : Registry) (ctx : Context) (depth : Nat) (forms : List Form) : Prop :=
  ∀ i ∈ r.invocationsIn ctx depth forms, ∃ e, r.expand ctx i = .ok e

theorem invocationsIn_singleton (depth : Nat) (n : Node) :
    r.invocationsIn ctx depth [.node n] = r.invocationsAt ctx depth n := by
  simp [invocationsIn, Form.node?]

theorem expandsIn_singleton {depth : Nat} {n : Node} :
    r.ExpandsIn ctx depth [.node n] ↔ r.ExpandsAt ctx depth n := by
  rw [ExpandsIn, invocationsIn_singleton, ExpandsAt]

theorem invocationsIn_cons_node (depth : Nat) (n : Node) (forms : List Form) :
    r.invocationsIn ctx depth (.node n :: forms) =
      r.invocationsAt ctx depth n ++ r.invocationsIn ctx depth forms := rfl

theorem invocationsIn_append (depth : Nat) (forms forms' : List Form) :
    r.invocationsIn ctx depth (forms ++ forms') =
      r.invocationsIn ctx depth forms ++ r.invocationsIn ctx depth forms' := by
  rw [invocationsIn, List.filterMap_append, List.flatMap_append, invocationsIn, invocationsIn]

theorem invocationsAt_of_not_isInvocation (depth : Nat) {n : Node} (h : n.isInvocation = false) :
    r.invocationsAt ctx depth n = [] := by
  cases depth with
  | zero => simp [invocationsAt, h]
  | succ depth => simp [invocationsAt, h]

theorem isInvocation_eq_false_of_eq_nil {n : Node} (h : r.invocationsAt ctx 0 n = []) :
    n.isInvocation = false := by
  rw [invocationsAt] at h
  cases hi : n.isInvocation with
  | false => rfl
  | true =>
    rw [hi] at h
    cases h

/-- One level below a node is what its expansion consists of. -/
theorem invocationsAt_succ {depth : Nat} {n : Node} {e : Expansion}
    (h : r.expand ctx n = .ok e) (hn : n.isInvocation = true) :
    r.invocationsAt ctx (depth + 1) n = r.invocationsIn ctx depth e.asForms := by
  rw [invocationsAt, if_pos hn, h]
  cases e with
  | forms nodes => rw [Expansion.asForms, invocationsIn, Form.filterMap_node?_map_node]
  | delete => rfl

theorem mem_invocationsIn_zero {forms : List Form} {i : Node} :
    i ∈ r.invocationsIn ctx 0 forms ↔ .node i ∈ forms ∧ i.isInvocation = true := by
  rw [invocationsIn, List.mem_flatMap]
  constructor
  · rintro ⟨n, hn, hi⟩
    rw [invocationsAt] at hi
    split at hi
    · rename_i hinvocation
      rw [List.mem_singleton.1 hi]
      exact ⟨Form.mem_filterMap_node?.1 hn, hinvocation⟩
    · cases hi
  · rintro ⟨hi, hinvocation⟩
    refine ⟨i, Form.mem_filterMap_node?.2 hi, ?_⟩
    rw [invocationsAt, if_pos hinvocation]
    exact List.mem_cons_self ..

/-- Forms without an invocation among them have none below them. -/
theorem invocationsIn_eq_nil {forms : List Form} (h : r.invocationsIn ctx 0 forms = [])
    (depth : Nat) : r.invocationsIn ctx depth forms = [] := by
  unfold invocationsIn at h ⊢
  rw [List.flatMap_eq_nil_iff] at h ⊢
  intro n hn
  refine invocationsAt_of_not_isInvocation depth (Bool.eq_false_iff.2 fun hi => ?_)
  have hn0 := h n hn
  rw [invocationsAt, if_pos hi] at hn0
  cases hn0

/-- An expansion fails for want of a qualifier, or with the error of one. -/
theorem ne_passLimitExceeded_of_expand {n start : Node} {version : Version} {limit : Nat}
    {last : List Form} {e : ResolveError} (h : r.expand ctx n = .error e) :
    e ≠ .passLimitExceeded start version limit last := by
  rintro rfl
  cases n with
  | invocation tag args =>
    rw [expand] at h
    cases hq : r.get? tag with
    | none =>
      rw [hq] at h
      cases h
    | some q =>
      rw [hq] at h
      obtain ⟨cause, -, hcause⟩ := Outcome.mapError_eq_error_iff.1 h
      cases hcause
  | _ => cases h

/-- Where an evaluation succeeds, every invocation that it meets expands. -/
theorem expandsIn_of_evaluateForms (h : r.Inward) {forms fs : List Form}
    (hevaluate : evaluateForms h ctx forms = .ok fs) (depth : Nat) :
    r.ExpandsIn ctx depth forms := by
  induction depth generalizing forms fs with
  | zero =>
    intro i hi
    obtain ⟨hmem, -⟩ := mem_invocationsIn_zero.1 hi
    obtain ⟨e, he, -⟩ := exists_expand_of_evaluateForms h hevaluate hmem
    exact ⟨e, he⟩
  | succ depth ih =>
    intro i hi
    obtain ⟨n, hn, hi⟩ := List.mem_flatMap.1 hi
    obtain ⟨e, he, fs', hfs'⟩ :=
      exists_expand_of_evaluateForms h hevaluate (Form.mem_filterMap_node?.1 hn)
    cases hinvocation : n.isInvocation with
    | true =>
      rw [invocationsAt_succ he hinvocation] at hi
      exact ih hfs' i hi
    | false =>
      rw [invocationsAt_of_not_isInvocation _ hinvocation] at hi
      cases hi

end Registry

end VersionedTree
