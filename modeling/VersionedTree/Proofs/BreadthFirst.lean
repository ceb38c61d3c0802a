import VersionedTree.Proofs.Bundled
import VersionedTree.Proofs.DepthFirst
import VersionedTree.Proofs.Equivalence

/-!
# Passes and depth-first evaluation

A resolution goes breadth first: a pass expands all invocations of one expansion depth. The forms
that it leaves evaluate to what the forms before it evaluate to, and the invocations below them are
those one level further down. A pass that leaves an invocation behind is never taken for stable,
since the deepest invocation among the forms is gone after it.

## What is proved

* `Resolver.pass_eq_ok` and `Resolver.firstFailure_of_pass` — one pass.
* `Resolver.pass_not_stable` — forms with an invocation among them are not equal to the next ones.
* `Resolver.settle_ending` — how a run of passes ends.
* `Resolver.resolve_depthFirst` — a resolution agrees with the depth-first evaluation.
-/

namespace VersionedTree

theorem Node.isInvocation_eq_of_beq {m n : Node} (h : (m == n) = true) :
    m.isInvocation = n.isInvocation := by
  cases Node.beq_iff_matches.1 h <;> rfl

/-- Every node of a list of forms has its counterpart in an equal list. -/
theorem Form.exists_of_beq {forms forms' : List Form} (h : (forms == forms') = true) {n : Node}
    (hn : .node n ∈ forms') : ∃ m, .node m ∈ forms ∧ (m == n) = true := by
  induction forms generalizing forms' with
  | nil =>
    cases forms' with
    | nil => cases hn
    | cons g rest => cases h
  | cons f forms ih =>
    cases forms' with
    | nil => cases h
    | cons g rest =>
      rw [List.cons_beq_cons, Bool.and_eq_true] at h
      rcases List.mem_cons.1 hn with rfl | hn
      · cases f with
        | node m => exact ⟨m, List.mem_cons_self .., h.1⟩
        | deletion => exact absurd h.1 Bool.false_ne_true
      · obtain ⟨m, hm, heq⟩ := ih h.2 hn
        exact ⟨m, List.mem_cons_of_mem _ hm, heq⟩

/-- Where every node of a kind has a greater one of the kind beside it, there is none: a list of
forms is finite. -/
theorem Form.not_of_ascending {P : Node → Prop} (size : Node → Nat) {forms : List Form}
    (h : ∀ n, .node n ∈ forms → P n → ∃ m, .node m ∈ forms ∧ P m ∧ size n < size m) {n : Node}
    (hn : .node n ∈ forms) : ¬P n := by
  intro hP
  have hall : ∀ d, ∃ m, .node m ∈ forms ∧ P m ∧ d ≤ size m := by
    intro d
    induction d with
    | zero => exact ⟨n, hn, hP, Nat.zero_le _⟩
    | succ d ih =>
      obtain ⟨m, hm, hPm, hd⟩ := ih
      obtain ⟨m', hm', hPm', hlt⟩ := h m hm hPm
      exact ⟨m', hm', hPm', by omega⟩
  obtain ⟨m, hm, -, hd⟩ := hall (((forms.filterMap Form.node?).map size).max?.getD 0 + 1)
  have hle : size m ≤ ((forms.filterMap Form.node?).map size).max?.getD 0 :=
    List.le_max?_getD_of_mem (List.mem_map_of_mem (Form.mem_filterMap_node?.2 hm))
  omega

namespace Resolver

/-- Forms of well-formed nodes are equal to themselves. -/
theorem forms_beq_refl {forms : List Form} (h : NodesSatisfy Node.WellFormed forms) :
    (forms == forms) = true := by
  induction forms with
  | nil => rfl
  | cons f rest ih =>
    rw [List.cons_beq_cons, Bool.and_eq_true]
    refine ⟨?_, ih fun n hn => h n (List.mem_cons_of_mem _ hn)⟩
    cases f with
    | node n => exact Node.beq_refl (h n (List.mem_cons_self ..))
    | deletion => rfl

variable {r : Resolver} {ctx : Context} {forms next : List Form}

/-! ### One pass -/

/-- A node expands, as a form, into the forms of its expansion. -/
theorem result_expandForm_node (n : Node) :
    (r.expandForm ctx (.node n)).result = (r.registry.expand ctx n).map Expansion.asForms := by
  cases hi : n.isInvocation with
  | false =>
    rw [expandForm_of_not_isInvocation hi, Registry.expand_of_not_isInvocation hi]
    rfl
  | true =>
    cases n with
    | invocation tag args =>
      rw [Registry.expand]
      cases hq : r.registry.get? tag with
      | none => exact result_expandForm_of_none hq
      | some q => exact result_expandForm hq
    | _ => cases hi

/-- A pass expands the first form and then the others. -/
theorem result_pass_cons (f : Form) (forms : List Form) :
    (r.pass ctx (f :: forms)).result = do
      let first ← (r.expandForm ctx f).result
      let rest ← (r.pass ctx forms).result
      return first ++ rest := by
  have hpass : ∀ forms : List Form, (r.pass ctx forms).result = do
      let expanded ← forms.mapM fun f => (r.expandForm ctx f).result
      return expanded.flatten := fun forms => by
    rw [pass, Traced.result_bind, Traced.result_mapM]
    rfl
  rw [hpass, hpass, List.mapM_cons]
  simp only [bind_assoc, pure_bind, List.flatten_cons]

/-- Where a form expands, its expansion evaluates to what it evaluates to, and is one level below
it. -/
theorem expandForm_eq_ok (h : r.registry.Inward) {f : Form}
    (hf : (r.expandForm ctx f).result = .ok next) :
    r.registry.ExpandsIn ctx 0 [f] ∧
      r.registry.evaluateForm h ctx f = r.registry.evaluateForms h ctx next ∧
      ∀ k, r.registry.invocationsIn ctx (k + 1) [f] = r.registry.invocationsIn ctx k next := by
  cases f with
  | deletion =>
    cases hf
    refine ⟨fun i hi => ?_, ?_, fun k => rfl⟩
    · cases hi
    · rw [Registry.evaluateForms_singleton]
  | node n =>
    rw [result_expandForm_node] at hf
    cases he : r.registry.expand ctx n with
    | error e =>
      rw [he] at hf
      cases hf
    | ok e =>
      rw [he] at hf
      cases hf
      refine ⟨fun i hi => ?_, ?_, fun k => ?_⟩
      · obtain ⟨hmem, -⟩ := Registry.mem_invocationsIn_zero.1 hi
        rw [List.mem_singleton, Form.node.injEq] at hmem
        exact ⟨e, hmem ▸ he⟩
      · rw [Registry.evaluateForm_node, he]
        rfl
      · rw [Registry.invocationsIn_singleton]
        cases hi : n.isInvocation with
        | true => exact Registry.invocationsAt_succ he hi
        | false =>
          rw [Registry.expand_of_not_isInvocation hi] at he
          cases he
          show _ = r.registry.invocationsIn ctx k [.node n]
          rw [Registry.invocationsIn_singleton, Registry.invocationsAt_of_not_isInvocation _ hi,
            Registry.invocationsAt_of_not_isInvocation _ hi]

/-- A pass that succeeds expands all invocations among the forms. What it leaves evaluates to what
the forms evaluate to, and is one level below them. -/
theorem pass_eq_ok (h : r.registry.Inward) (hpass : (r.pass ctx forms).result = .ok next) :
    r.registry.ExpandsIn ctx 0 forms ∧
      r.registry.evaluateForms h ctx forms = r.registry.evaluateForms h ctx next ∧
      ∀ k, r.registry.invocationsIn ctx (k + 1) forms = r.registry.invocationsIn ctx k next := by
  induction forms generalizing next with
  | nil =>
    cases hpass
    refine ⟨fun i hi => ?_, rfl, fun k => rfl⟩
    cases hi
  | cons f forms ih =>
    rw [result_pass_cons] at hpass
    obtain ⟨first, hfirst, hpass⟩ := Outcome.bind_eq_ok_iff.1 hpass
    obtain ⟨rest, hrest, hpass⟩ := Outcome.bind_eq_ok_iff.1 hpass
    cases hpass
    obtain ⟨hexpands, hevaluates, hbelow⟩ := expandForm_eq_ok h hfirst
    obtain ⟨hexpands', hevaluates', hbelow'⟩ := ih hrest
    rw [← List.singleton_append]
    refine ⟨fun i hi => ?_, ?_, fun k => ?_⟩
    · rw [Registry.invocationsIn_append, List.mem_append] at hi
      rcases hi with hi | hi
      · exact hexpands i hi
      · exact hexpands' i hi
    · rw [Registry.evaluateForms_append, Registry.evaluateForms_append,
        Registry.evaluateForms_singleton, hevaluates, hevaluates']
    · rw [Registry.invocationsIn_append, Registry.invocationsIn_append, hbelow, hbelow']

/-- A pass fails with the failure of the leftmost invocation among the forms that fails. -/
theorem firstFailure_of_pass {e : ResolveError} (hpass : (r.pass ctx forms).result = .error e) :
    Outcome.FirstFailure ((r.registry.invocationsIn ctx 0 forms).map (r.registry.expand ctx))
      e := by
  induction forms with
  | nil => cases hpass
  | cons f forms ih =>
    rw [result_pass_cons] at hpass
    cases f with
    | deletion =>
      rcases Outcome.bind_eq_error_iff.1 hpass with hfirst | ⟨first, -, hpass⟩
      · cases hfirst
      · rcases Outcome.bind_eq_error_iff.1 hpass with hrest | ⟨rest, -, hpass⟩
        · exact ih hrest
        · cases hpass
    | node n =>
      rw [result_expandForm_node] at hpass
      rw [Registry.invocationsIn_cons_node, List.map_append]
      cases he : r.registry.expand ctx n with
      | error d =>
        rw [he] at hpass
        cases hpass
        have hi : n.isInvocation = true := by
          by_contra hi
          rw [Registry.expand_of_not_isInvocation (Bool.eq_false_iff.2 hi)] at he
          cases he
        rw [Registry.invocationsAt, if_pos hi, List.map_singleton, he, List.singleton_append]
        exact Outcome.firstFailure_error_cons_iff.2 rfl
      | ok expansion =>
        rw [he] at hpass
        change ((r.pass ctx forms).result >>= fun rest => .ok (expansion.asForms ++ rest)) =
          .error e at hpass
        have hrest : (r.pass ctx forms).result = .error e := by
          rcases Outcome.bind_eq_error_iff.1 hpass with hrest | ⟨rest, -, hpass⟩
          · exact hrest
          · cases hpass
        rw [Registry.invocationsAt]
        split
        · rw [List.map_singleton, he, List.singleton_append]
          exact Outcome.firstFailure_ok_cons_iff.2 (ih hrest)
        · exact ih hrest

/-- The first failure at an expansion depth is that of an invocation there. -/
theorem exists_of_firstFailure {k : Nat} {e : ResolveError} (hfirst : Outcome.FirstFailure
    ((r.registry.invocationsIn ctx k forms).map (r.registry.expand ctx)) e) :
    ∃ i ∈ r.registry.invocationsIn ctx k forms, r.registry.expand ctx i = .error e := by
  obtain ⟨before, after, hsplit, -⟩ := hfirst
  have hmem : .error e ∈ (r.registry.invocationsIn ctx k forms).map (r.registry.expand ctx) := by
    rw [hsplit]
    simp
  exact List.mem_map.1 hmem

theorem not_expandsIn_of_firstFailure {k : Nat} {e : ResolveError}
    (hfirst : Outcome.FirstFailure
      ((r.registry.invocationsIn ctx k forms).map (r.registry.expand ctx)) e) :
    ¬r.registry.ExpandsIn ctx k forms := by
  intro hexpands
  obtain ⟨i, hi, he⟩ := exists_of_firstFailure hfirst
  obtain ⟨expansion, hexpansion⟩ := hexpands i hi
  rw [he] at hexpansion
  cases hexpansion

/-- A pass over forms without an invocation among them changes nothing. -/
theorem result_pass_of_eq_nil (h : r.registry.invocationsIn ctx 0 forms = []) :
    (r.pass ctx forms).result = .ok forms := by
  induction forms with
  | nil => rfl
  | cons f forms ih =>
    rw [result_pass_cons]
    cases f with
    | deletion =>
      rw [ih h]
      rfl
    | node n =>
      rw [Registry.invocationsIn_cons_node, List.append_eq_nil_iff] at h
      have hi := Registry.isInvocation_eq_false_of_eq_nil h.1
      rw [expandForm_of_not_isInvocation hi, ih h.2]
      rfl

/-- An invocation that a pass leaves is less deep than some invocation before it. -/
theorem exists_deeper_of_pass (h : r.registry.Inward) (hpass : (r.pass ctx forms).result = .ok next)
    {m : Node} (hm : .node m ∈ next) (hinvocation : m.isInvocation = true) :
    ∃ n, .node n ∈ forms ∧ n.isInvocation = true ∧ m.depth < n.depth := by
  obtain ⟨f, hf, fs, hexpand, hm⟩ := exists_of_mem_pass hpass hm
  cases f with
  | deletion =>
    cases hexpand
    rw [List.mem_singleton] at hm
    cases hm
  | node n =>
    cases hi : n.isInvocation with
    | false =>
      rw [expandForm_of_not_isInvocation hi] at hexpand
      cases hexpand
      rw [List.mem_singleton, Form.node.injEq] at hm
      rw [hm, hi] at hinvocation
      cases hinvocation
    | true =>
      rw [result_expandForm_node] at hexpand
      obtain ⟨e, he, rfl⟩ := Outcome.map_eq_ok_iff.1 hexpand
      obtain ⟨nodes, rfl, hmem⟩ := Expansion.node_mem_asForms.1 hm
      refine ⟨n, hf, hi, ?_⟩
      cases n with
      | invocation tag args => exact Registry.depth_lt_of_expand h he hmem
      | _ => cases hi

/-- While there is an invocation among the forms, they are not equal to the next ones: the next
forms would hold a counterpart of the deepest invocation. -/
theorem pass_not_stable (h : r.registry.Inward) (hforms : NodesSatisfy Node.WellFormed forms)
    (hnext : NodesSatisfy Node.WellFormed next) (hpass : (r.pass ctx forms).result = .ok next)
    (hne : r.registry.invocationsIn ctx 0 forms ≠ []) : (next == forms) = false := by
  by_contra hstable
  have hstable : (next == forms) = true := Bool.not_eq_false _ ▸ hstable
  -- every invocation among the forms has a counterpart in the next ones, which comes from a
  -- deeper invocation
  have hdeeper : ∀ n, .node n ∈ forms → n.isInvocation = true →
      ∃ n', .node n' ∈ forms ∧ n'.isInvocation = true ∧ n.depth < n'.depth := by
    intro n hn hi
    obtain ⟨m, hm, heq⟩ := Form.exists_of_beq hstable hn
    have hdepth := Node.depth_eq_of_beq (hnext m hm) (hforms n hn) heq
    have him : m.isInvocation = true := (Node.isInvocation_eq_of_beq heq).trans hi
    rw [← hdepth]
    exact exists_deeper_of_pass h hpass hm him
  obtain ⟨n, hn⟩ := List.exists_mem_of_ne_nil _ hne
  obtain ⟨hmem, hi⟩ := Registry.mem_invocationsIn_zero.1 hn
  exact Form.not_of_ascending Node.depth hdeeper hmem hi

/-! ### A run of passes -/

/-- How a resolution ends that may pass over the forms `m + 1` times, by what the depth-first
evaluation of the forms meets. -/
inductive Ending (r : Resolver) (h : r.registry.Inward) (ctx : Context) (start : Node) (m : Nat)
    (forms : List Form) : Except ResolveError (List Form) → Prop
  /-- The evaluation succeeds, and all invocations are above the depth `m`. -/
  | stable (fs : List Form) (hevaluate : r.registry.evaluateForms h ctx forms = .ok fs)
      (hdeep : ∀ k, m ≤ k → r.registry.invocationsIn ctx k forms = []) :
      Ending r h ctx start m forms (.ok fs)
  /-- There is an invocation at the depth `m`, and no failure down to it. -/
  | limit (last : List Form) (hexpands : ∀ k, k ≤ m → r.registry.ExpandsIn ctx k forms)
      (hne : r.registry.invocationsIn ctx m forms ≠ []) :
      Ending r h ctx start m forms
        (.error (.passLimitExceeded start ctx.version r.maxPasses last))
  /-- There are failures down to the depth `m`; of those at the smallest depth it is the
  leftmost. -/
  | failure (k : Nat) (e : ResolveError) (hk : k ≤ m)
      (hexpands : ∀ j, j < k → r.registry.ExpandsIn ctx j forms)
      (hfirst : Outcome.FirstFailure
        ((r.registry.invocationsIn ctx k forms).map (r.registry.expand ctx)) e) :
      Ending r h ctx start m forms (.error e)

/-- What ends the passes over the next forms ends those over the forms, one level further down. -/
theorem Ending.of_pass {h : r.registry.Inward} {start : Node} {m : Nat}
    {x : Except ResolveError (List Form)} (hpass : (r.pass ctx forms).result = .ok next)
    (hx : Ending r h ctx start m next x) : Ending r h ctx start (m + 1) forms x := by
  obtain ⟨hexpands₀, hevaluates, hbelow⟩ := pass_eq_ok h hpass
  have hexpands_succ : ∀ k, r.registry.ExpandsIn ctx k next →
      r.registry.ExpandsIn ctx (k + 1) forms := fun k hk i hi => hk i (hbelow k ▸ hi)
  cases hx with
  | stable fs hevaluate hdeep =>
    refine .stable fs (hevaluates.trans hevaluate) fun k hk => ?_
    obtain ⟨k, rfl⟩ : ∃ j, k = j + 1 := ⟨k - 1, by omega⟩
    rw [hbelow]
    exact hdeep k (by omega)
  | limit last hexpands hne =>
    refine .limit last (fun k hk => ?_) (hbelow m ▸ hne)
    cases k with
    | zero => exact hexpands₀
    | succ k => exact hexpands_succ k (hexpands k (by omega))
  | failure k e hk hexpands hfirst =>
    refine .failure (k + 1) e (by omega) (fun j hj => ?_) (hbelow k ▸ hfirst)
    cases j with
    | zero => exact hexpands₀
    | succ j => exact hexpands_succ j (hexpands j (by omega))

/-- Forms without an invocation among them evaluate to themselves. -/
theorem evaluateForms_of_eq_nil (h : r.registry.Inward)
    (hnil : r.registry.invocationsIn ctx 0 forms = []) :
    r.registry.evaluateForms h ctx forms = .ok forms := by
  induction forms with
  | nil => rfl
  | cons f forms ih =>
    rw [Registry.evaluateForms_cons]
    cases f with
    | deletion =>
      rw [ih hnil]
      rfl
    | node n =>
      rw [Registry.invocationsIn_cons_node, List.append_eq_nil_iff] at hnil
      have hi := Registry.isInvocation_eq_false_of_eq_nil hnil.1
      rw [Registry.evaluateForm, Registry.evaluate_of_not_isInvocation h hi, ih hnil.2]
      rfl

/-- The first of several passes decides, or it leaves the run to the passes after it. -/
theorem settle_ending_succ (h : r.registry.Inward) {start : Node} {m done : Nat}
    (hforms : NodesSatisfy Node.WellFormed forms)
    (hrest : ∀ next, (r.pass ctx forms).result = .ok next →
      NodesSatisfy Node.WellFormed next → r.registry.invocationsIn ctx 0 forms ≠ [] →
        Ending r h ctx start m forms (r.settle ctx start m (done + 1) next).result) :
    Ending r h ctx start m forms (r.settle ctx start (m + 1) done forms).result := by
  rw [settle, Traced.result_bind]
  cases hpass : (r.pass ctx forms).result with
  | error e =>
    refine .failure 0 e (Nat.zero_le _) (fun j hj => ?_) (firstFailure_of_pass hpass)
    exact absurd hj (Nat.not_lt_zero _)
  | ok next =>
    have hnext : NodesSatisfy Node.WellFormed next :=
      (pass_meets (expandForm_wellFormed h.keepsWellFormed) hforms).1 next hpass
    show Ending r h ctx start m forms (Traced.result (if next == forms then _ else _))
    by_cases hnil : r.registry.invocationsIn ctx 0 forms = []
    · have hsame := result_pass_of_eq_nil hnil
      rw [hpass] at hsame
      cases hsame
      rw [if_pos (forms_beq_refl hforms)]
      exact .stable forms (evaluateForms_of_eq_nil h hnil) fun k _ =>
        Registry.invocationsIn_eq_nil hnil k
    · rw [pass_not_stable h hforms hnext hpass hnil, if_neg Bool.false_ne_true]
      exact hrest next hpass hnext hnil

/-- A run of passes ends as the depth-first evaluation says. -/
theorem settle_ending (h : r.registry.Inward) {start : Node} {m done : Nat}
    (hforms : NodesSatisfy Node.WellFormed forms) :
    Ending r h ctx start m forms (r.settle ctx start (m + 1) done forms).result := by
  induction m generalizing done forms with
  | zero =>
    refine settle_ending_succ h hforms fun next hpass _ hne => ?_
    refine .limit next (fun k hk => ?_) hne
    obtain rfl : k = 0 := by omega
    exact (pass_eq_ok h hpass).1
  | succ m ih =>
    exact settle_ending_succ h hforms fun next hpass hnext _ => .of_pass hpass (ih hnext)

/-- A resolution ends as the depth-first evaluation of the node says. -/
theorem resolve_ending (h : r.registry.Inward) {n : Node} (hn : n.WellFormed) :
    Ending r h ctx n r.maxPasses [.node n] (r.resolve ctx n).result := by
  rw [resolve]
  by_cases hi : n.isInvocation = true
  · rw [if_pos hi]
    exact settle_ending h (nodesSatisfy_singleton.2 hn)
  · rw [if_neg hi]
    have hi : n.isInvocation = false := Bool.eq_false_iff.2 hi
    have hnil : r.registry.invocationsIn ctx 0 [.node n] = [] := by
      rw [Registry.invocationsIn_singleton, Registry.invocationsAt_of_not_isInvocation 0 hi]
    exact .stable [.node n] (evaluateForms_of_eq_nil h hnil) fun k _ =>
      Registry.invocationsIn_eq_nil hnil k

/-! ### Agreement with the depth-first evaluation -/

section Agreement

variable {h : r.registry.Inward} {start : Node} {m : Nat} {x : Except ResolveError (List Form)}

theorem Ending.eq_ok_iff (hx : Ending r h ctx start m forms x) {fs : List Form} :
    x = .ok fs ↔ r.registry.evaluateForms h ctx forms = .ok fs ∧
      ∀ k, m ≤ k → r.registry.invocationsIn ctx k forms = [] := by
  cases hx with
  | stable fs' hevaluate hdeep =>
    rw [hevaluate]
    exact ⟨fun h => ⟨h, hdeep⟩, fun h => h.1⟩
  | limit last hexpands hne =>
    refine ⟨fun h => ?_, fun h => absurd (h.2 m (Nat.le_refl _)) hne⟩
    cases h
  | failure k e hk hexpands hfirst =>
    refine ⟨fun h => ?_, fun hfs => ?_⟩
    · cases h
    · exact absurd (Registry.expandsIn_of_evaluateForms h hfs.1 k)
        (not_expandsIn_of_firstFailure hfirst)

theorem Ending.eq_limit_iff (hx : Ending r h ctx start m forms x) :
    (∃ start version limit last, x = .error (.passLimitExceeded start version limit last)) ↔
      (∀ k, k ≤ m → r.registry.ExpandsIn ctx k forms) ∧
        r.registry.invocationsIn ctx m forms ≠ [] := by
  cases hx with
  | stable fs hevaluate hdeep =>
    refine ⟨fun h => ?_, fun h => absurd (hdeep m (Nat.le_refl _)) h.2⟩
    obtain ⟨_, _, _, _, h⟩ := h
    cases h
  | limit last hexpands hne => exact ⟨fun _ => ⟨hexpands, hne⟩, fun _ => ⟨_, _, _, _, rfl⟩⟩
  | failure k e hk hexpands hfirst =>
    refine ⟨fun h => ?_, fun h => absurd (h.1 k hk) (not_expandsIn_of_firstFailure hfirst)⟩
    obtain ⟨_, _, _, _, h⟩ := h
    obtain ⟨i, -, hi⟩ := exists_of_firstFailure hfirst
    exact absurd (Except.error.inj h) (Registry.ne_passLimitExceeded_of_expand hi)

end Agreement

/-- A resolution agrees with the depth-first evaluation. The node has expansion depth zero. -/
structure AgreesWithEvaluation (r : Resolver) (h : r.registry.Inward) (ctx : Context) (n : Node) :
    Prop where
  /-- It gives the forms of the evaluation, if all invocations are above the limit. -/
  ok_iff : ∀ fs, (r.resolve ctx n).result = .ok fs ↔
    r.registry.evaluate h ctx n = .ok fs ∧
      ∀ k, r.maxPasses ≤ k → r.registry.invocationsAt ctx k n = []
  /-- It runs into the limit if there is an invocation at the limit, and none down to the limit
  fails. -/
  limit_iff : (∃ start version limit last,
      (r.resolve ctx n).result = .error (.passLimitExceeded start version limit last)) ↔
    (∀ k, k ≤ r.maxPasses → r.registry.ExpandsAt ctx k n) ∧
      r.registry.invocationsAt ctx r.maxPasses n ≠ []
  /-- In every other case it gives the failure of the leftmost failing invocation of the smallest
  failing depth. -/
  failure : (¬∃ fs, r.registry.evaluate h ctx n = .ok fs ∧
      ∀ k, r.maxPasses ≤ k → r.registry.invocationsAt ctx k n = []) →
    ¬((∀ k, k ≤ r.maxPasses → r.registry.ExpandsAt ctx k n) ∧
      r.registry.invocationsAt ctx r.maxPasses n ≠ []) →
    ∃ k, k ≤ r.maxPasses ∧ (∀ j, j < k → r.registry.ExpandsAt ctx j n) ∧
      ∃ e, Outcome.FirstFailure
          ((r.registry.invocationsAt ctx k n).map (r.registry.expand ctx)) e ∧
        (r.resolve ctx n).result = .error e

/-- Resolutions agree with the depth-first evaluation where qualifiers return arguments or what is
inside of arguments, as the bundled qualifiers and some of the small ones do. -/
theorem resolve_depthFirst (h : r.registry.Inward) {n : Node} (hn : n.WellFormed) :
    r.AgreesWithEvaluation h ctx n ∧
      (∀ m, ∀ q ∈ [Standard.only, Standard.added, Standard.removed, Standard.switch,
        Standard.changed, Standard.feature m, Standard.featureCase m], q.Inward) ∧
      ∀ q ∈ [Qualifier.silent Sample.when, Qualifier.silent Sample.since,
        Qualifier.silent Sample.splice, Qualifier.silent Sample.drop], q.Inward := by
  have hending : Ending r h ctx n r.maxPasses [.node n] (r.resolve ctx n).result :=
    resolve_ending h hn
  refine ⟨⟨fun fs => ?_, ?_, fun hok hlimit => ?_⟩, Standard.inward_bundled, Sample.inward_small⟩
  · have hiff : (r.resolve ctx n).result = .ok fs ↔ _ := hending.eq_ok_iff
    rw [Registry.evaluateForms_singleton, Registry.evaluateForm] at hiff
    simp only [Registry.invocationsIn_singleton] at hiff
    exact hiff
  · have hiff := hending.eq_limit_iff
    simp only [Registry.expandsIn_singleton, Registry.invocationsIn_singleton] at hiff
    exact hiff
  · generalize (r.resolve ctx n).result = x at hending
    cases hending with
    | stable fs hevaluate hdeep =>
      rw [Registry.evaluateForms_singleton, Registry.evaluateForm] at hevaluate
      simp only [Registry.invocationsIn_singleton] at hdeep
      exact absurd ⟨fs, hevaluate, hdeep⟩ hok
    | limit last hexpands hne =>
      simp only [Registry.expandsIn_singleton] at hexpands
      rw [Registry.invocationsIn_singleton] at hne
      exact absurd ⟨hexpands, hne⟩ hlimit
    | failure k e hk hexpands hfirst =>
      simp only [Registry.expandsIn_singleton] at hexpands
      rw [Registry.invocationsIn_singleton] at hfirst
      exact ⟨k, hk, hexpands, e, hfirst, rfl⟩

theorem resolve_depthFirst_nested :
    AgreesWithEvaluation ⟨(Standard.registry none).value, 1⟩ (Standard.inward_registry none)
      ⟨Sample.threeVersions, ⟨"v1"⟩, 1, rfl, none⟩ Sample.nested ∧
    (∀ m, ∀ q ∈ [Standard.only, Standard.added, Standard.removed, Standard.switch,
      Standard.changed, Standard.feature m, Standard.featureCase m], q.Inward) ∧
    ∀ q ∈ [Qualifier.silent Sample.when, Qualifier.silent Sample.since,
      Qualifier.silent Sample.splice, Qualifier.silent Sample.drop], q.Inward :=
  resolve_depthFirst (Standard.inward_registry none) Sample.wellFormed_nested

end Resolver

end VersionedTree
