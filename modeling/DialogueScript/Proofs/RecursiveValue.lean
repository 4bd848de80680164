import Mathlib
import DialogueScript.Proofs.Growth

/-!
# The recursive value of a plan

Read as a tree, a plan has a value without any order of evaluation: an operand that is
the result of a step has the value that this step computes from the values of its own
operands. Running in place reaches the same value only because every result is waited for
at most once and by a later step; a second slot, or one of an earlier step, would be read
as `undefined`.

Main statement: `Plan.evaluate_iff_denotes`. The plan of an accepted expression refers
backward and to no result twice, its run gives the recursive value of the last step, and
no step is run while one of its slots still waits for a result.
-/

namespace DialogueScript

/-! ## Values by recursion -/

def Step.combine (s : Step) (left right : Value) : Value :=
  match s.operator with
  | some o => o.apply left right
  | none => right

/-- The value of an operand slot by recursion through the steps that it refers to. There is
none if that recursion does not end or leaves the plan. -/
inductive Operand.Denotes (store : Store) (steps : List Step) : Option Operand → Value → Prop
  | unused : Denotes store steps none .undefined
  | literal (v : Value) : Denotes store steps (some (.literal v)) v
  | variable (name : String) : Denotes store steps (some (.variable name)) (store.get name)
  | result {k : Nat} {s : Step} {left right : Value} :
      steps[k]? = some s → Denotes store steps s.left left → Denotes store steps s.right right →
      Denotes store steps (some (.result k)) (s.combine left right)

/-- Recursion gives at most one value. -/
theorem Operand.Denotes.unique {store : Store} {steps : List Step} {operand : Option Operand}
    {v w : Value} (hv : Denotes store steps operand v) (hw : Denotes store steps operand w) :
    v = w := by
  induction hv generalizing w with
  | unused =>
    cases hw
    rfl
  | literal v =>
    cases hw
    rfl
  | «variable» name =>
    cases hw
    rfl
  | result hs _ _ ihl ihr =>
    cases hw with
    | result hs' hl hr =>
      obtain rfl := Option.some.inj (hs.symm.trans hs')
      rw [ihl hl, ihr hr]

/-- A slot has a value if the result that it waits for has one. -/
theorem Operand.denotes_readWith {store : Store} {steps : List Step} {results : List Value}
    {operand : Option Operand}
    (h : ∀ k, operand = some (.result k) →
      Denotes store steps operand (Operand.readWith store results operand)) :
    Denotes store steps operand (Operand.readWith store results operand) := by
  rcases operand with _ | (v | name | k)
  · exact .unused
  · exact .literal v
  · exact .variable name
  · exact h k rfl

namespace Plan

theorem Backward.reference_lt {n j k : Nat} {s : Step} {steps : List Step} (h : Backward n steps)
    (hs : steps[j]? = some s) (hk : k ∈ s.references) : k < n + j := by
  induction steps generalizing n j with
  | nil => exact absurd hs (by simp)
  | cons first rest ih =>
    cases j with
    | zero =>
      obtain rfl : first = s := Option.some.inj hs
      exact h.1 k hk
    | succ j =>
      have := ih h.2 (List.getElem?_cons_succ.symm.trans hs)
      omega

/-- In a plan that refers backward, recursion gives what the list of results holds. -/
theorem denotes_result (store : Store) {steps : List Step} (hb : Backward 0 steps) {k : Nat}
    (hk : k < steps.length) : Operand.Denotes store steps (some (.result k))
      (Operand.readWith store (results store steps) (some (.result k))) := by
  -- Not on the steps: a step may wait for any of those before it, so all of them are needed.
  induction k using Nat.strongRecOn with
  | ind k ih =>
    obtain ⟨s, hs⟩ : ∃ s, steps[k]? = some s := ⟨_, List.getElem?_eq_getElem hk⟩
    have hbelow : ∀ j ∈ s.references, Operand.Denotes store steps (some (.result j))
        (Operand.readWith store (results store steps) (some (.result j))) := by
      intro j hj
      have hlt : j < k := Nat.zero_add k ▸ hb.reference_lt hs hj
      exact ih j hlt (Nat.lt_trans hlt hk)
    have hvalue : Operand.readWith store (results store steps) (some (.result k)) =
        s.combine (Operand.readWith store (results store steps) s.left)
          (Operand.readWith store (results store steps) s.right) := by
      show (results store steps)[k]?.getD .undefined = _
      rw [results_getElem? hb hs]
      rfl
    rw [hvalue]
    refine .result hs (Operand.denotes_readWith fun j hj => ?_) (Operand.denotes_readWith fun j hj => ?_)
    · rw [hj]
      exact hbelow j (Step.mem_references.mpr (Or.inl hj))
    · rw [hj]
      exact hbelow j (Step.mem_references.mpr (Or.inr hj))

/-- Running in place gives the recursive value of the last step. -/
theorem denotes_evaluate {steps : List Step} (h : Linear steps) (hne : steps ≠ []) (store : Store) :
    Operand.Denotes store steps (some (.result (steps.length - 1))) (evaluate ⟨steps⟩ store) := by
  have hpos := List.length_pos_iff.mpr hne
  have hlast := denotes_result store h.backward (Nat.sub_lt hpos Nat.one_pos)
  rwa [evaluate_eq_getLast h, List.getLast?_eq_getElem?, length_results]

/-! ## Steps as they are run -/

/-- The steps as they stand when each of them is run, with the results that were delivered
to it by then. The first one has an index. -/
def played (store : Store) (index : Nat) (steps : List Step) : List Step :=
  match steps with
  | [] => []
  | s :: rest => s :: played store (index + 1) (deliver index (s.value store) rest)
termination_by steps.length
decreasing_by simp

@[simp]
theorem length_played (store : Store) (index : Nat) (steps : List Step) :
    (played store index steps).length = steps.length := by
  fun_induction played store index steps with
  | case1 => rfl
  | case2 index s rest ih => rw [List.length_cons, ih, length_deliver, List.length_cons]

/-- A run gives the value of the last step played. -/
theorem runFrom_eq_played (store : Store) (index : Nat) (steps : List Step) :
    runFrom store index steps =
      ((played store index steps).getLast?.map (Step.value store)).getD .undefined := by
  fun_induction runFrom store index steps with
  | case1 index => simp [played]
  | case2 index last => simp [played, deliver]
  | case3 index s next rest ih =>
    have hne : played store (index + 1) (deliver index (s.value store) (next :: rest)) ≠ [] :=
      List.ne_nil_of_length_pos (by simp)
    rw [ih, played, List.getLast?_cons_of_ne_nil hne]

end Plan

/-- A step whose results are all at hand waits for nothing once they are filled in. -/
theorem Step.references_settle {done : List Value} {s : Step}
    (h : ∀ k ∈ s.references, k < done.length) : (s.settle done).references = [] := by
  have hslot : ∀ {operand : Option Operand}, (∀ k, operand = some (.result k) → k < done.length) →
      Operand.reference? (Operand.settle done operand) = none := by
    intro operand hk
    rcases operand with _ | (v | name | k)
    · rfl
    · rfl
    · rfl
    · rw [Operand.settle_result_lt (hk k rfl)]
      rfl
  unfold references settle
  rw [hslot fun k hk => h k (mem_references.mpr (Or.inl hk)),
    hslot fun k hk => h k (mem_references.mpr (Or.inr hk))]
  rfl

namespace Plan

/-- Where references go backward and no result is waited for twice, every step has all its
results when it is run. -/
theorem references_of_mem_played (store : Store) (done : List Value) {steps : List Step}
    (hb : Backward done.length steps) (hn : (references steps).Nodup) {s : Step}
    (hs : s ∈ played store done.length (steps.map (Step.settle done))) : s.references = [] := by
  induction steps generalizing done with
  | nil =>
    rw [List.map_nil, played] at hs
    exact absurd hs List.not_mem_nil
  | cons first rest ih =>
    have hlen : (done ++ [first.valueWith store done]).length = done.length + 1 := by simp
    have hn' : (references rest).Nodup := (List.nodup_append.mp hn).2.1
    rw [List.map_cons, played, Step.value_settle hb.1, deliver_settle hn', ← hlen] at hs
    rcases List.mem_cons.mp hs with rfl | hs
    · exact Step.references_settle hb.1
    · exact ih (done ++ [first.valueWith store done]) (hlen.symm ▸ hb.2) hn' hs

theorem references_of_played {steps : List Step} (h : Linear steps) (store : Store) :
    ∀ s ∈ played store 0 steps, s.references = [] := by
  intro s hs
  exact references_of_mem_played store [] h.backward h.nodup ((map_settle_nil steps).symm ▸ hs)

/-! ## Accepted expressions -/

theorem linear_of_ofToken {t : Token} {plan : Plan} (h : ofToken t = .ok plan) :
    Linear plan.steps := by
  unfold ofToken at h
  split at h
  · exact nomatch h
  · cases h
    exact ⟨⟨fun k hk => absurd hk List.not_mem_nil, trivial⟩, List.nodup_nil⟩
  · cases h
    exact ⟨⟨fun k hk => absurd hk List.not_mem_nil, trivial⟩, List.nodup_nil⟩

/-- Whatever tokens a plan is made of, it refers backward and to no result twice. -/
theorem linear_of_ofTokens {ts : List Token} {plan : Plan} (h : ofTokens ts = .ok plan) :
    Linear plan.steps := by
  match ts, h with
  | [], h =>
    cases h
    exact ⟨trivial, List.nodup_nil⟩
  | [t], h => exact linear_of_ofToken h
  | t :: u :: rest, h =>
    obtain ⟨trees, hgrown⟩ := exists_grown h
    exact hgrown.linear

/-- An expression that compiles has tokens, and its plan is theirs. -/
theorem exists_tokens_of_compile {text : List Char} {offset : Nat} {plan : Plan}
    (h : compile text offset = .ok plan) :
    ∃ ts, Token.scan text = .ok ts ∧ ofTokens (Token.settleSigns false ts) = .ok plan := by
  unfold compile ofText at h
  cases hs : Token.scan text with
  | error e =>
    rw [hs] at h
    exact nomatch h
  | ok ts =>
    rw [hs] at h
    have h : (ofTokens (Token.settleSigns false ts)).mapError _ = .ok plan := h
    cases ho : ofTokens (Token.settleSigns false ts) with
    | error e =>
      rw [ho] at h
      exact nomatch h
    | ok p =>
      rw [ho] at h
      cases h
      exact ⟨ts, rfl, ho⟩

/-- The plan of an accepted expression refers backward and to no result twice. Running it in
place gives `undefined` if it is empty, and otherwise exactly the value of its last step by
recursion; every step that is run has all its operands filled in by then. -/
theorem evaluate_iff_denotes {text : List Char} {offset : Nat} {plan : Plan}
    (h : compile text offset = .ok plan) (store : Store) :
    Linear plan.steps ∧
    (plan.steps = [] → plan.evaluate store = .undefined) ∧
    (plan.steps ≠ [] → ∀ v,
      Operand.Denotes store plan.steps (some (.result (plan.steps.length - 1))) v ↔
        v = plan.evaluate store) ∧
    plan.evaluate store =
      ((played store 0 plan.steps).getLast?.map (Step.value store)).getD .undefined ∧
    ∀ s ∈ played store 0 plan.steps, s.references = [] := by
  obtain ⟨ts, _, hts⟩ := exists_tokens_of_compile h
  have hlinear := linear_of_ofTokens hts
  refine ⟨hlinear, fun hnil => ?_, fun hne v => ?_, runFrom_eq_played store 0 plan.steps,
    references_of_played hlinear store⟩
  · rw [evaluate, hnil, runFrom]
  · have hvalue := denotes_evaluate hlinear hne store
    exact ⟨fun hv => hv.unique hvalue, fun hv => hv ▸ hvalue⟩

/-- In `a+b 'x'+!c` nothing joins the two sums, and the value is that of the second one: the
negation comes first, its result waits for the last step, and `a+b` goes nowhere. -/
theorem evaluate_iff_denotes_sums_side_by_side :
    let steps : List Step := [⟨some .logicalNot, none, some (.variable "c")⟩,
      ⟨some .add, some (.variable "a"), some (.variable "b")⟩,
      ⟨some .add, some (.literal (.str "x")), some (.result 0)⟩]
    compile ['a', '+', 'b', ' ', '\'', 'x', '\'', '+', '!', 'c'] 0 = .ok ⟨steps⟩ ∧
      Linear steps ∧ Operand.Denotes .empty steps (some (.result 2)) (.str "xtrue") := by
  intro steps
  have hc : compile ['a', '+', 'b', ' ', '\'', 'x', '\'', '+', '!', 'c'] 0 = .ok ⟨steps⟩ := by cbv
  have hv : Value.str "xtrue" = evaluate ⟨steps⟩ .empty := by cbv
  obtain ⟨hlinear, _, hvalue, _⟩ := evaluate_iff_denotes hc .empty
  exact ⟨hc, hlinear, (hvalue (List.cons_ne_nil _ _) _).mpr hv⟩

end Plan

end DialogueScript
