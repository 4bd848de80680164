import DialogueScript.Plan

/-!
# The results of a plan

A plan is run in place: the result of a step is written into the first slot behind
it that waits for it. Here the results are instead collected in a list, and an
operand `result k` is looked up there. The two readings agree for a plan in which
references go backward and no result is waited for twice.

Main statements:
1. `Plan.evaluate_eq_getLast`: running in place gives the last of the results.
2. `Plan.results_getElem?`: each result is what its step computes from the results.
-/

namespace DialogueScript

/-! ## References -/

/-- The step whose result an operand slot waits for. -/
def Operand.reference? : Option Operand → Option Nat
  | some (.result k) => some k
  | _ => none

/-- The steps whose results a step works on, the left operand first. -/
def Step.references (s : Step) : List Nat :=
  (Operand.reference? s.left).toList ++ (Operand.reference? s.right).toList

namespace Plan

def references (steps : List Step) : List Nat := steps.flatMap Step.references

/-- Steps of which the first has the index `n` refer to earlier steps only. -/
def Backward (n : Nat) : List Step → Prop
  | [] => True
  | s :: rest => (∀ k ∈ s.references, k < n) ∧ Backward (n + 1) rest

/-- References go backward, and no result is waited for twice. -/
structure Linear (steps : List Step) : Prop where
  backward : Backward 0 steps
  nodup : (references steps).Nodup

end Plan

namespace Step

theorem mem_references {s : Step} {k : Nat} :
    k ∈ s.references ↔ s.left = some (.result k) ∨ s.right = some (.result k) := by
  obtain ⟨o, left, right⟩ := s
  unfold references
  rw [List.mem_append, Option.mem_toList, Option.mem_toList]
  rcases left with _ | (_ | _ | _) <;> rcases right with _ | (_ | _ | _) <;>
    simp [Operand.reference?]

theorem uses_iff {s : Step} {k : Nat} : s.uses k = true ↔ k ∈ s.references := by
  rw [mem_references, uses, Bool.or_eq_true, decide_eq_true_eq, decide_eq_true_eq]

end Step

namespace Plan

theorem references_append (xs ys : List Step) :
    references (xs ++ ys) = references xs ++ references ys :=
  List.flatMap_append

theorem references_cons (s : Step) (steps : List Step) :
    references (s :: steps) = s.references ++ references steps := rfl

theorem backward_append {n : Nat} {xs ys : List Step} :
    Backward n (xs ++ ys) ↔ Backward n xs ∧ Backward (n + xs.length) ys := by
  induction xs generalizing n with
  | nil => exact ⟨fun h => ⟨trivial, h⟩, fun h => h.2⟩
  | cons s rest ih =>
    have hn : n + 1 + rest.length = n + (s :: rest).length := by rw [List.length_cons]; omega
    show (_ ∧ Backward (n + 1) (rest ++ ys)) ↔ (_ ∧ Backward (n + 1) rest) ∧ _
    rw [ih, hn, and_assoc]

/-- All references of steps with indices from `n` on are below the index of the last. -/
theorem lt_of_mem_references {n k : Nat} {steps : List Step} (hb : Backward n steps)
    (hk : k ∈ references steps) : k + 1 < n + steps.length := by
  induction steps generalizing n with
  | nil => exact absurd hk List.not_mem_nil
  | cons s rest ih =>
    rw [List.length_cons]
    rcases List.mem_append.mp hk with hs | hr
    · have := hb.1 k hs
      omega
    · have := ih hb.2 hr
      omega

end Plan

/-! ## Results -/

/-- The value of an operand when the results of earlier steps are at hand. -/
def Operand.readWith (store : Store) (results : List Value) : Option Operand → Value
  | some (.result k) => results[k]?.getD .undefined
  | operand => Operand.read store operand

def Step.valueWith (store : Store) (results : List Value) (s : Step) : Value :=
  match s.operator with
  | some o => o.apply (Operand.readWith store results s.left) (Operand.readWith store results s.right)
  | none => Operand.readWith store results s.right

namespace Plan

/-- The results `done` of earlier steps, followed by those of the given steps. -/
def resultsFrom (store : Store) (done : List Value) : List Step → List Value
  | [] => done
  | s :: rest => resultsFrom store (done ++ [s.valueWith store done]) rest

def results (store : Store) (steps : List Step) : List Value := resultsFrom store [] steps

theorem resultsFrom_eq_append (store : Store) (done : List Value) (steps : List Step) :
    ∃ more, resultsFrom store done steps = done ++ more ∧ more.length = steps.length := by
  induction steps generalizing done with
  | nil => exact ⟨[], (List.append_nil done).symm, rfl⟩
  | cons s rest ih =>
    obtain ⟨more, he, hl⟩ := ih (done ++ [s.valueWith store done])
    refine ⟨s.valueWith store done :: more, ?_, by rw [List.length_cons, List.length_cons, hl]⟩
    rw [resultsFrom, he, List.append_assoc, List.singleton_append]

@[simp]
theorem length_results (store : Store) (steps : List Step) :
    (results store steps).length = steps.length := by
  obtain ⟨more, he, hl⟩ := resultsFrom_eq_append store [] steps
  rw [results, he, List.nil_append, hl]

end Plan

/-- An operand that does not refer to `n` or beyond reads the same from longer results. -/
theorem Operand.readWith_append {store : Store} {done more : List Value} {operand : Option Operand}
    (h : ∀ k, operand = some (.result k) → k < done.length) :
    Operand.readWith store (done ++ more) operand = Operand.readWith store done operand := by
  rcases operand with _ | (_ | _ | k)
  · rfl
  · rfl
  · rfl
  · show (done ++ more)[k]?.getD _ = done[k]?.getD _
    rw [List.getElem?_append_left (h k rfl)]

theorem Step.valueWith_append {store : Store} {done more : List Value} {s : Step}
    (h : ∀ k ∈ s.references, k < done.length) :
    s.valueWith store (done ++ more) = s.valueWith store done := by
  have hl : Operand.readWith store (done ++ more) s.left = Operand.readWith store done s.left :=
    Operand.readWith_append fun k hk => h k (mem_references.mpr (Or.inl hk))
  have hr : Operand.readWith store (done ++ more) s.right = Operand.readWith store done s.right :=
    Operand.readWith_append fun k hk => h k (mem_references.mpr (Or.inr hk))
  rw [valueWith, valueWith, hl, hr]

namespace Plan

theorem resultsFrom_getElem? (store : Store) (done : List Value) {steps : List Step} {j : Nat}
    {s : Step} (hb : Backward done.length steps) (hs : steps[j]? = some s) :
    (resultsFrom store done steps)[done.length + j]? =
      some (s.valueWith store (resultsFrom store done steps)) := by
  induction steps generalizing done j with
  | nil => exact absurd hs (by simp)
  | cons first rest ih =>
    have hlen : (done ++ [first.valueWith store done]).length = done.length + 1 := by simp
    obtain ⟨more, he, _⟩ :=
      resultsFrom_eq_append store (done ++ [first.valueWith store done]) rest
    cases j with
    | zero =>
      obtain rfl : first = s := Option.some.inj hs
      rw [resultsFrom, he, List.append_assoc, Step.valueWith_append hb.1]
      simp
    | succ j =>
      have := ih (done ++ [first.valueWith store done]) (hlen.symm ▸ hb.2) (by simpa using hs)
      rw [hlen, Nat.add_assoc, Nat.add_comm 1 j] at this
      exact this

/-- Each result is what its step computes from the results. -/
theorem results_getElem? {store : Store} {steps : List Step} {j : Nat} {s : Step}
    (hb : Backward 0 steps) (hs : steps[j]? = some s) :
    (results store steps)[j]? = some (s.valueWith store (results store steps)) := by
  have := resultsFrom_getElem? store [] hb hs
  rwa [List.length_nil, Nat.zero_add] at this

end Plan

/-! ## Running in place -/

/-- An operand in which the results at hand stand in for the references to them. -/
def Operand.settle (done : List Value) : Option Operand → Option Operand
  | some (.result k) => some ((done[k]?.map .literal).getD (.result k))
  | operand => operand

def Step.settle (done : List Value) (s : Step) : Step :=
  { s with left := Operand.settle done s.left, right := Operand.settle done s.right }

namespace Operand

theorem settle_result_lt {done : List Value} {k : Nat} (h : k < done.length) :
    settle done (some (.result k)) = some (.literal (done.get ⟨k, h⟩)) := by
  show some ((done[k]?.map _).getD _) = _
  rw [List.getElem?_eq_getElem h]
  rfl

theorem settle_result_ge {done : List Value} {k : Nat} (h : done.length ≤ k) :
    settle done (some (.result k)) = some (.result k) := by
  show some ((done[k]?.map _).getD _) = _
  rw [List.getElem?_eq_none h]
  rfl

/-- One more result fills exactly the slots that refer to it. -/
theorem settle_concat (done : List Value) (v : Value) (operand : Option Operand) :
    settle (done ++ [v]) operand =
      if settle done operand = some (.result done.length) then some (.literal v)
      else settle done operand := by
  rcases operand with _ | (w | name | i)
  · rfl
  · rfl
  · rfl
  · rcases Nat.lt_trichotomy i done.length with hi | hi | hi
    · rw [settle_result_lt hi, settle_result_lt (by rw [List.length_append]; omega),
        if_neg (by simp)]
      simp [List.getElem_append_left hi]
    · subst hi
      rw [settle_result_ge (Nat.le_refl _), if_pos rfl, settle_result_lt (by simp)]
      simp
    · rw [settle_result_ge (Nat.le_of_lt hi), settle_result_ge (by simp; omega), if_neg]
      intro h
      cases h
      omega

theorem settle_eq_result_length {done : List Value} {operand : Option Operand} :
    settle done operand = some (.result done.length) ↔ operand = some (.result done.length) := by
  rcases operand with _ | (w | name | i)
  · exact Iff.rfl
  · exact Iff.rfl
  · exact Iff.rfl
  · by_cases hi : i < done.length
    · rw [settle_result_lt hi]
      simp
      omega
    · rw [settle_result_ge (Nat.le_of_not_lt hi)]

theorem read_settle {store : Store} {done : List Value} {operand : Option Operand}
    (h : ∀ k, operand = some (.result k) → k < done.length) :
    read store (settle done operand) = readWith store done operand := by
  rcases operand with _ | (v | name | k)
  · rfl
  · rfl
  · rfl
  · rw [settle_result_lt (h k rfl)]
    show done.get _ = done[k]?.getD _
    rw [List.getElem?_eq_getElem (h k rfl)]
    rfl

end Operand

namespace Step

theorem value_settle {store : Store} {done : List Value} {s : Step}
    (h : ∀ k ∈ s.references, k < done.length) :
    (s.settle done).value store = s.valueWith store done := by
  have hl : Operand.read store (Operand.settle done s.left) = Operand.readWith store done s.left :=
    Operand.read_settle fun k hk => h k (mem_references.mpr (Or.inl hk))
  have hr : Operand.read store (Operand.settle done s.right) = Operand.readWith store done s.right :=
    Operand.read_settle fun k hk => h k (mem_references.mpr (Or.inr hk))
  show (match s.operator with
    | some o => o.apply (Operand.read store (Operand.settle done s.left))
        (Operand.read store (Operand.settle done s.right))
    | none => Operand.read store (Operand.settle done s.right)) = _
  rw [hl, hr, valueWith]

theorem settle_left_iff {done : List Value} {s : Step} :
    (s.settle done).left = some (.result done.length) ↔ s.left = some (.result done.length) :=
  Operand.settle_eq_result_length

theorem settle_right_iff {done : List Value} {s : Step} :
    (s.settle done).right = some (.result done.length) ↔ s.right = some (.result done.length) :=
  Operand.settle_eq_result_length

/-- One more result fills exactly the slots of a step that refer to it. -/
theorem settle_concat (done : List Value) (v : Value) (s : Step) :
    s.settle (done ++ [v]) =
      { s with
        left := if s.left = some (.result done.length) then some (.literal v)
          else (s.settle done).left
        right := if s.right = some (.result done.length) then some (.literal v)
          else (s.settle done).right } := by
  unfold settle
  simp only [Operand.settle_concat, Operand.settle_eq_result_length]

/-- A result that no slot of a step waits for leaves the step as it is. -/
theorem settle_concat_of_not_mem {done : List Value} {v : Value} {s : Step}
    (h : done.length ∉ s.references) : s.settle (done ++ [v]) = s.settle done := by
  rw [mem_references, not_or] at h
  rw [settle_concat, if_neg h.1, if_neg h.2]
  rfl

end Step

namespace Plan

/-- Before the first result nothing is filled in. -/
theorem map_settle_nil (steps : List Step) : steps.map (Step.settle []) = steps := by
  have hid : ∀ s : Step, s.settle [] = s := by
    rintro ⟨o, left, right⟩
    rcases left with _ | (_ | _ | _) <;> rcases right with _ | (_ | _ | _) <;> rfl
  rw [List.map_congr_left (fun s _ => hid s), List.map_id']

theorem map_settle_concat_of_not_mem {done : List Value} {v : Value} {steps : List Step}
    (h : done.length ∉ references steps) :
    steps.map (Step.settle (done ++ [v])) = steps.map (Step.settle done) := by
  apply List.map_congr_left
  intro s hs
  apply Step.settle_concat_of_not_mem
  intro hk
  exact h (List.mem_flatMap.mpr ⟨s, hs, hk⟩)

/-- Where no result is waited for twice, the first waiting slot is the only one, so
delivering to it fills every slot that waits. -/
theorem deliver_settle {done : List Value} {v : Value} {steps : List Step}
    (h : (references steps).Nodup) :
    deliver done.length v (steps.map (Step.settle done)) =
      steps.map (Step.settle (done ++ [v])) := by
  induction steps with
  | nil => rfl
  | cons s rest ih =>
    rw [references_cons, List.nodup_append] at h
    obtain ⟨hs, hr, hsr⟩ := h
    rw [List.map_cons, List.map_cons, deliver]
    by_cases hl : s.left = some (.result done.length)
    · have hmem : done.length ∈ s.references := Step.mem_references.mpr (Or.inl hl)
      have hright : s.right ≠ some (.result done.length) := by
        intro he
        rw [Step.references, hl, he] at hs
        exact absurd hs (by simp [Operand.reference?])
      have hrest : done.length ∉ references rest := fun hk => hsr _ hmem _ hk rfl
      rw [if_pos (Step.settle_left_iff.mpr hl), map_settle_concat_of_not_mem hrest,
        Step.settle_concat, if_pos hl, if_neg hright]
      rfl
    · rw [if_neg (fun he => hl (Step.settle_left_iff.mp he))]
      by_cases hright : s.right = some (.result done.length)
      · have hmem : done.length ∈ s.references := Step.mem_references.mpr (Or.inr hright)
        have hrest : done.length ∉ references rest := fun hk => hsr _ hmem _ hk rfl
        rw [if_pos (Step.settle_right_iff.mpr hright), map_settle_concat_of_not_mem hrest,
          Step.settle_concat, if_neg hl, if_pos hright]
        rfl
      · have hnot : done.length ∉ s.references := by
          rw [Step.mem_references, not_or]
          exact ⟨hl, hright⟩
        rw [if_neg (fun he => hright (Step.settle_right_iff.mp he)), ih hr,
          Step.settle_concat_of_not_mem hnot]

/-- Running steps in place, with earlier results filled in, gives the last result. -/
theorem runFrom_settle (store : Store) (done : List Value) {s : Step} {rest : List Step}
    (hb : Backward done.length (s :: rest)) (hn : (references (s :: rest)).Nodup) :
    runFrom store done.length ((s :: rest).map (Step.settle done)) =
      (resultsFrom store done (s :: rest)).getLast?.getD .undefined := by
  induction rest generalizing done s with
  | nil =>
    rw [List.map_cons, List.map_nil, runFrom, Step.value_settle hb.1]
    simp [resultsFrom]
  | cons next rest ih =>
    have hlen : (done ++ [s.valueWith store done]).length = done.length + 1 := by simp
    have hn' : (references (next :: rest)).Nodup := (List.nodup_append.mp hn).2.1
    rw [List.map_cons, List.map_cons, runFrom, ← List.map_cons, deliver_settle hn',
      Step.value_settle hb.1, resultsFrom, ← hlen]
    exact ih (done ++ [s.valueWith store done]) (hlen.symm ▸ hb.2) hn'

/-- Running a plan in place gives the last of its results. -/
theorem evaluate_eq_getLast {steps : List Step} (h : Linear steps) (store : Store) :
    evaluate ⟨steps⟩ store = (results store steps).getLast?.getD .undefined := by
  cases steps with
  | nil => simp [evaluate, runFrom, results, resultsFrom]
  | cons s rest =>
    have := runFrom_settle store [] h.backward h.nodup
    rwa [map_settle_nil] at this

end Plan

end DialogueScript
