import DialogueScript.Proofs.Growth

/-!
# Depths around a group

Parentheses leave nothing behind but depths: the tokens of a group are deeper than the
operators next to it. Then runs of unary operators are raised, and a run raises the operand
behind it, too. Here it is shown that this does not turn the order of depths around: a token
deeper than an operator next to its group is still deeper than that operator afterwards.

Only operators count, and the two sides differ. An operator before the group may begin or end a
run itself, and then the group is raised with it. An operator behind the group is binary, and
nothing that begins in the group raises it.

Main statements:
1. `Token.depthAt_raiseRuns_lt`: tokens stay deeper than the operator before them.
2. `Token.depthAt_raiseRuns_lt_of_binary`: tokens stay deeper than the operator behind them.
-/

namespace DialogueScript

namespace Token

/-! ## Tokens by index -/

/-- The depth of the token with an index, and zero if there is none. -/
def depthAt (ts : List Token) (i : Nat) : Nat := (ts[i]?.map Token.depth).getD 0

def operatorAt? (ts : List Token) (i : Nat) : Option Operator := ts[i]?.bind Token.operator?

def isUnaryAt (ts : List Token) (i : Nat) : Bool := (operatorAt? ts i).any Operator.isUnary

theorem depthAt_append_left {ts us : List Token} {i : Nat} (h : i < ts.length) :
    depthAt (ts ++ us) i = depthAt ts i := by
  rw [depthAt, depthAt, List.getElem?_append_left h]

theorem depthAt_append_right (ts us : List Token) (i : Nat) :
    depthAt (ts ++ us) (ts.length + i) = depthAt us i := by
  rw [depthAt, depthAt, List.getElem?_append_right (Nat.le_add_right _ _), Nat.add_sub_cancel_left]

theorem operatorAt?_append_left {ts us : List Token} {i : Nat} (h : i < ts.length) :
    operatorAt? (ts ++ us) i = operatorAt? ts i := by
  rw [operatorAt?, operatorAt?, List.getElem?_append_left h]

theorem operatorAt?_append_right (ts us : List Token) (i : Nat) :
    operatorAt? (ts ++ us) (ts.length + i) = operatorAt? us i := by
  rw [operatorAt?, operatorAt?, List.getElem?_append_right (Nat.le_add_right _ _),
    Nat.add_sub_cancel_left]

/-- Which operators stand where does not depend on depths and offsets. -/
theorem operatorAt?_congr {ts us : List Token} (h : ts.map Token.operator? = us.map Token.operator?)
    (i : Nat) : operatorAt? ts i = operatorAt? us i := by
  have hjoin : ∀ vs : List Token, operatorAt? vs i = (vs.map Token.operator?)[i]?.join := by
    intro vs
    rw [operatorAt?, List.getElem?_map]
    cases vs[i]? <;> rfl
  rw [hjoin, hjoin, h]

theorem operatorAt?_raiseRuns (ts : List Token) (i : Nat) :
    operatorAt? (raiseRuns ts) i = operatorAt? ts i :=
  operatorAt?_congr (map_raiseRuns (fun _ _ => rfl) ts) i

theorem isUnaryAt_raiseRuns (ts : List Token) (i : Nat) :
    isUnaryAt (raiseRuns ts) i = isUnaryAt ts i := by
  rw [isUnaryAt, isUnaryAt, operatorAt?_raiseRuns]

/-! ## One run -/

/-- Every item that `takeWhile` takes passes the test. -/
theorem exists_of_lt_takeWhile {α : Type} {p : α → Bool} {l : List α} {i : Nat}
    (h : i < (l.takeWhile p).length) : ∃ a, l[i]? = some a ∧ p a = true := by
  have hget : l[i]? = (l.takeWhile p)[i]? := by
    rw [← List.getElem?_append_left h, List.takeWhile_append_dropWhile]
  refine ⟨(l.takeWhile p)[i], ?_, List.all_eq_true.mp List.all_takeWhile _ (List.getElem_mem h)⟩
  rw [hget, List.getElem?_eq_getElem h]

/-- The item that `takeWhile` stops at fails the test. -/
theorem eq_false_of_takeWhile {α : Type} {p : α → Bool} {l : List α} {a : α}
    (h : l[(l.takeWhile p).length]? = some a) : p a = false := by
  have hstop := List.head?_dropWhile_not p l
  have hget : (l.dropWhile p).head? = some a := by
    rw [← h, List.head?_eq_getElem?, ← Nat.sub_self (l.takeWhile p).length,
      ← List.getElem?_append_right (Nat.le_refl _), List.takeWhile_append_dropWhile]
  rw [hget] at hstop
  exact hstop

theorem depthAt_stagger {levels : Nat} {ts : List Token} {i : Nat} (h : i < ts.length) :
    depthAt (stagger levels ts) i = depthAt ts i + levels + i := by
  induction ts generalizing levels i with
  | nil => exact absurd h (Nat.not_lt_zero i)
  | cons t ts ih =>
    cases i with
    | zero => rfl
    | succ i =>
      show depthAt (stagger (levels + 1) ts) i = depthAt ts i + levels + (i + 1)
      rw [ih (Nat.lt_of_succ_lt_succ h)]
      omega

/-- How many tokens the operand at the front has, if tokens deeper than `floor` make a group. -/
def operandLength (floor : Nat) : List Token → Nat
  | [] => 0
  | t :: rest => if floor < t.depth then (rest.takeWhile fun u => floor < u.depth).length + 1 else 1

theorem depthAt_map_raise {levels : Nat} {ts : List Token} {i : Nat} (h : i < ts.length) :
    depthAt (ts.map (raise levels)) i = depthAt ts i + levels := by
  rw [depthAt, depthAt, List.getElem?_map, List.getElem?_eq_getElem h]
  rfl

/-- The operand at the front is raised, and nothing else. -/
theorem depthAt_raiseOperand (floor levels : Nat) (ts : List Token) (i : Nat) :
    depthAt (raiseOperand floor levels ts) i =
      depthAt ts i + if i < operandLength floor ts then levels else 0 := by
  have hsplit : ∀ operand more : List Token,
      depthAt (operand.map (raise levels) ++ more) i =
        depthAt (operand ++ more) i + if i < operand.length then levels else 0 := by
    intro operand more
    by_cases hi : i < operand.length
    · rw [if_pos hi, depthAt_append_left hi, depthAt_append_left (by rwa [List.length_map]),
        depthAt_map_raise hi]
    · obtain ⟨j, rfl⟩ := Nat.exists_eq_add_of_le (Nat.le_of_not_lt hi)
      have hright := depthAt_append_right (operand.map (raise levels)) more j
      rw [List.length_map] at hright
      rw [if_neg hi, depthAt_append_right, hright]
      rfl
  cases ts with
  | nil => rfl
  | cons t rest =>
    rw [raiseOperand, operandLength]
    split
    · have h := hsplit (t :: rest.takeWhile fun u => floor < u.depth)
        (rest.dropWhile fun u => floor < u.depth)
      rw [List.cons_append, List.takeWhile_append_dropWhile] at h
      exact h
    · exact hsplit [t] rest

/-- All tokens of an operand are deeper than the floor, or it is a single one. -/
theorem floor_lt_of_lt_operandLength {floor i j : Nat} {ts : List Token}
    (hi : i < operandLength floor ts) (hpos : 0 < i) (hj : j ≤ i) : floor < depthAt ts j := by
  cases ts with
  | nil => exact absurd hi (Nat.not_lt_zero i)
  | cons t rest =>
    rw [operandLength] at hi
    split at hi
    · next ht =>
      cases j with
      | zero => exact ht
      | succ j =>
        have hlt : j < (rest.takeWhile fun u => floor < u.depth).length := by omega
        obtain ⟨u, hu, hdeep⟩ := exists_of_lt_takeWhile hlt
        show floor < depthAt rest j
        rw [depthAt, hu]
        exact of_decide_eq_true hdeep
    · exact absurd hi (Nat.not_lt_of_le hpos)

/-- Tokens at the front that are deeper than the floor belong to the operand. -/
theorem lt_operandLength {floor i : Nat} {ts : List Token} (h : ∀ j, j ≤ i → floor < depthAt ts j) :
    i < operandLength floor ts := by
  cases ts with
  | nil => exact absurd (h 0 (Nat.zero_le i)) (Nat.not_lt_zero floor)
  | cons t rest =>
    have ht : floor < t.depth := h 0 (Nat.zero_le i)
    rw [operandLength, if_pos ht]
    refine Decidable.byContradiction fun hi => ?_
    have hdeep : floor < depthAt rest (rest.takeWhile fun u => floor < u.depth).length :=
      h _ (Nat.le_of_not_lt hi)
    rw [depthAt] at hdeep
    cases hu : rest[(rest.takeWhile fun u => floor < u.depth).length]? with
    | none =>
      rw [hu] at hdeep
      exact absurd hdeep (Nat.not_lt_zero floor)
    | some u =>
      rw [hu] at hdeep
      have hstop := eq_false_of_takeWhile hu
      exact absurd hdeep (of_decide_eq_false hstop)

/-- The operators of a run are unary and of one depth. -/
theorem run_spec {t : Token} {rest : List Token} {i : Nat} (hne : runAfter t rest ≠ [])
    (hi : i < (runAfter t rest).length + 1) :
    isUnaryAt (t :: rest) i = true ∧ depthAt (t :: rest) i = t.depth := by
  have ht : t.isUnary = true := by
    refine Decidable.byContradiction fun ht => hne ?_
    rw [runAfter, if_neg ht]
  cases i with
  | zero => exact ⟨ht, rfl⟩
  | succ i =>
    have hlt : i < (rest.takeWhile fun u => u.isUnary && u.depth = t.depth).length := by
      rw [runAfter, if_pos ht] at hi
      exact Nat.lt_of_succ_lt_succ hi
    obtain ⟨u, hu, hrun⟩ := exists_of_lt_takeWhile hlt
    obtain ⟨hunary, hdepth⟩ := Bool.and_eq_true_iff.mp hrun
    show isUnaryAt rest i = true ∧ depthAt rest i = t.depth
    rw [isUnaryAt, operatorAt?, depthAt, hu]
    exact ⟨hunary, of_decide_eq_true hdepth⟩

/-- The token behind a run does not belong to it. -/
theorem run_stops {t : Token} {rest : List Token} (hne : runAfter t rest ≠ [])
    (hu : isUnaryAt (rest.drop (runAfter t rest).length) 0 = true) :
    depthAt (rest.drop (runAfter t rest).length) 0 ≠ t.depth := by
  have ht : t.isUnary = true := (run_spec (i := 0) hne (Nat.succ_pos _)).1
  rw [runAfter, if_pos ht] at hu ⊢
  rw [isUnaryAt, operatorAt?, List.getElem?_drop, Nat.add_zero] at hu
  rw [depthAt, List.getElem?_drop, Nat.add_zero]
  cases hget : rest[(rest.takeWhile fun u => u.isUnary && u.depth = t.depth).length]? with
  | none =>
    rw [hget] at hu
    cases hu
  | some u =>
    have hstop := eq_false_of_takeWhile hget
    rw [hget] at hu
    have hunary : u.isUnary = true := hu
    rw [hunary, Bool.true_and] at hstop
    exact of_decide_eq_false hstop

theorem depthAt_behind_run (t : Token) (rest : List Token) (i : Nat) :
    depthAt (t :: rest) ((runAfter t rest).length + 1 + i) =
      depthAt (rest.drop (runAfter t rest).length) i := by
  rw [depthAt, depthAt, Nat.add_right_comm, List.getElem?_cons_succ, List.getElem?_drop]

theorem operatorAt?_behind_run (t : Token) (rest : List Token) (i : Nat) :
    operatorAt? (t :: rest) ((runAfter t rest).length + 1 + i) =
      operatorAt? (rest.drop (runAfter t rest).length) i := by
  rw [operatorAt?, operatorAt?, Nat.add_right_comm, List.getElem?_cons_succ, List.getElem?_drop]

/-- In a raised run each operator is one level deeper than that before it. -/
theorem depthAt_raised_run {t : Token} {rest : List Token} (hne : runAfter t rest ≠ []) {i : Nat}
    (hi : i < (runAfter t rest).length + 1) (raised : List Token) :
    depthAt (stagger 1 (t :: runAfter t rest) ++ raised) i = t.depth + 1 + i := by
  have hrun : depthAt (t :: runAfter t rest) i = t.depth := by
    rw [← (run_spec hne hi).2, ← runAfter_append_drop t rest, ← List.cons_append,
      depthAt_append_left hi, runAfter_append_drop]
  rw [depthAt_append_left (by rwa [length_stagger]), depthAt_stagger hi, hrun]

theorem depthAt_behind_raised_run (t : Token) (more raised : List Token) (i : Nat) :
    depthAt (stagger 1 (t :: more) ++ raised) (more.length + 1 + i) = depthAt raised i := by
  have h := depthAt_append_right (stagger 1 (t :: more)) raised i
  rwa [length_stagger] at h

theorem operatorAt?_raiseOperand (floor levels : Nat) (ts : List Token) (i : Nat) :
    operatorAt? (raiseOperand floor levels ts) i = operatorAt? ts i :=
  operatorAt?_congr (map_raiseOperand (fun _ _ => rfl) floor levels ts) i

/-! ## All runs -/

/-- Nothing comes to stand less deep. -/
theorem le_depthAt_raiseRuns (ts : List Token) (i : Nat) :
    depthAt ts i ≤ depthAt (raiseRuns ts) i := by
  fun_induction raiseRuns ts generalizing i with
  | case1 => exact Nat.le_refl _
  | case2 t rest more hmore ih =>
    cases i with
    | zero => exact Nat.le_refl _
    | succ i => exact ih i
  | case3 t rest more hmore ih =>
    have hne : runAfter t rest ≠ [] := fun he => hmore (List.isEmpty_iff.mpr he)
    rcases Nat.lt_or_ge i (more.length + 1) with hi | hi
    · rw [depthAt_raised_run hne hi, (run_spec hne hi).2, Nat.add_assoc]
      exact Nat.le_add_right _ _
    · obtain ⟨j, rfl⟩ := Nat.exists_eq_add_of_le hi
      rw [depthAt_behind_run, depthAt_behind_raised_run]
      refine Nat.le_trans ?_ (ih j)
      rw [depthAt_raiseOperand]
      exact Nat.le_add_right _ _

/-- The first token is raised by one level at most. -/
theorem depthAt_zero_raiseRuns (ts : List Token) :
    depthAt (raiseRuns ts) 0 ≤ depthAt ts 0 + 1 := by
  cases ts with
  | nil =>
    rw [raiseRuns]
    exact Nat.zero_le _
  | cons t rest =>
    rw [raiseRuns]
    split
    · exact Nat.le_succ _
    · next hmore =>
      have hne : runAfter t rest ≠ [] := fun he => hmore (List.isEmpty_iff.mpr he)
      rw [depthAt_raised_run hne (Nat.succ_pos _)]
      exact Nat.le_refl _

/-- Behind a unary operator stands no other operator, unless it is unary and deeper. -/
def Chained (ts : List Token) : Prop :=
  ∀ i, isUnaryAt ts i = true → operatorAt? ts (i + 1) ≠ none →
    isUnaryAt ts (i + 1) = true ∧ depthAt ts i < depthAt ts (i + 1)

theorem Chained.right {ts us : List Token} (h : Chained (ts ++ us)) : Chained us := by
  intro i hu ho
  have hi := h (ts.length + i)
  rw [Nat.add_assoc] at hi
  simp only [isUnaryAt, operatorAt?_append_right, depthAt_append_right] at hi
  exact hi hu ho

theorem raiseRuns_of_run {t : Token} {rest : List Token} (hne : runAfter t rest ≠ []) :
    raiseRuns (t :: rest) = stagger 1 (t :: runAfter t rest) ++
      raiseRuns (raiseOperand t.depth ((runAfter t rest).length + 1)
        (rest.drop (runAfter t rest).length)) := by
  rw [raiseRuns, if_neg fun he => hne (List.isEmpty_iff.mp he)]

/-- An operator right behind a run begins a group. If it did not, the run would raise it alone,
and then it would not get deeper than the run. -/
theorem depth_lt_behind_run {t : Token} {rest : List Token} (hne : runAfter t rest ≠ [])
    (hc : Chained (raiseRuns (t :: rest)))
    (ho : operatorAt? (rest.drop (runAfter t rest).length) 0 ≠ none) :
    t.depth < depthAt (rest.drop (runAfter t rest).length) 0 := by
  have hlast := run_spec hne (Nat.lt_succ_self (runAfter t rest).length)
  have hbehind := operatorAt?_behind_run t rest 0
  rw [Nat.add_zero] at hbehind
  obtain ⟨hunary, hdeeper⟩ := hc (runAfter t rest).length (by rw [isUnaryAt_raiseRuns, hlast.1])
    (by rwa [operatorAt?_raiseRuns, hbehind])
  rw [isUnaryAt_raiseRuns, isUnaryAt, hbehind] at hunary
  have hstop := run_stops hne hunary
  have hraised := depthAt_behind_raised_run t (runAfter t rest)
    (raiseRuns (raiseOperand t.depth ((runAfter t rest).length + 1)
      (rest.drop (runAfter t rest).length))) 0
  rw [Nat.add_zero, ← raiseRuns_of_run hne] at hraised
  have hlevels := depthAt_zero_raiseRuns (raiseOperand t.depth ((runAfter t rest).length + 1)
    (rest.drop (runAfter t rest).length))
  rw [hraised, raiseRuns_of_run hne, depthAt_raised_run hne (Nat.lt_succ_self _)] at hdeeper
  rw [depthAt_raiseOperand] at hlevels
  split at hlevels <;> omega

/-- A token deeper than an operator before it stays deeper than that, if all tokens between them
are. -/
theorem depthAt_raiseRuns_lt {ts : List Token} (p q : Nat) (hpq : p < q)
    (hp : operatorAt? ts p ≠ none) (hdeep : ∀ m, p < m → m ≤ q → depthAt ts p < depthAt ts m)
    (hc : Chained (raiseRuns ts)) : depthAt (raiseRuns ts) p < depthAt (raiseRuns ts) q := by
  induction ts using raiseRuns.induct generalizing p q with
  | case1 => exact absurd rfl hp
  | case2 t rest more hmore ih =>
    rw [raiseRuns, if_pos hmore] at hc ⊢
    obtain ⟨q, rfl⟩ := Nat.exists_eq_add_one_of_ne_zero (Nat.ne_zero_of_lt hpq)
    cases p with
    | zero =>
      exact Nat.lt_of_lt_of_le (hdeep (q + 1) hpq (Nat.le_refl _)) (le_depthAt_raiseRuns rest q)
    | succ p =>
      refine ih p q (Nat.lt_of_succ_lt_succ hpq) hp (fun m hpm hmq => ?_)
        (@Chained.right [t] _ hc)
      exact hdeep (m + 1) (Nat.succ_lt_succ hpm) (Nat.succ_le_succ hmq)
  | case3 t rest more hmore ih =>
    have hne : runAfter t rest ≠ [] := fun he => hmore (List.isEmpty_iff.mpr he)
    subst more
    rcases Nat.lt_or_ge p ((runAfter t rest).length + 1) with hp' | hp'
    · have hlast : p = (runAfter t rest).length := by
        refine Decidable.byContradiction fun hp'' => ?_
        have hnext := hdeep (p + 1) (Nat.lt_succ_self p) hpq
        rw [(run_spec hne hp').2, (run_spec hne (by omega)).2] at hnext
        exact absurd hnext (Nat.lt_irrefl _)
      subst hlast
      obtain ⟨j, rfl⟩ := Nat.exists_eq_add_of_le hpq
      have hgroup : ∀ i, i ≤ j → t.depth < depthAt (rest.drop (runAfter t rest).length) i := by
        intro i hi
        rw [← depthAt_behind_run, ← (run_spec hne hp').2]
        exact hdeep _ (by omega) (Nat.add_le_add_left hi _)
      rw [raiseRuns_of_run hne, depthAt_raised_run hne hp', depthAt_behind_raised_run]
      refine Nat.lt_of_lt_of_le ?_ (le_depthAt_raiseRuns _ j)
      rw [depthAt_raiseOperand, if_pos (lt_operandLength hgroup)]
      have := hgroup j (Nat.le_refl j)
      omega
    · obtain ⟨i, rfl⟩ := Nat.exists_eq_add_of_le hp'
      obtain ⟨j, rfl⟩ := Nat.exists_eq_add_of_le (Nat.le_trans hp' (Nat.le_of_lt hpq))
      rw [operatorAt?_behind_run] at hp
      have hdeep' : ∀ m, i < m → m ≤ j → depthAt (rest.drop (runAfter t rest).length) i <
          depthAt (rest.drop (runAfter t rest).length) m := by
        intro m him hmj
        rw [← depthAt_behind_run, ← depthAt_behind_run]
        exact hdeep _ (Nat.add_lt_add_left him _) (Nat.add_le_add_left hmj _)
      have hfloor : i < operandLength t.depth (rest.drop (runAfter t rest).length) →
          ∀ k, k ≤ i → t.depth < depthAt (rest.drop (runAfter t rest).length) k := by
        intro hi k hk
        rcases Nat.eq_zero_or_pos i with rfl | hpos
        · rw [Nat.le_zero.mp hk]
          exact depth_lt_behind_run hne hc hp
        · exact floor_lt_of_lt_operandLength hi hpos hk
      rw [raiseRuns_of_run hne] at hc ⊢
      rw [depthAt_behind_raised_run, depthAt_behind_raised_run]
      refine ih i j (Nat.lt_of_add_lt_add_left hpq) ?_ (fun m him hmj => ?_) (Chained.right hc)
      · rwa [operatorAt?_raiseOperand]
      · rw [depthAt_raiseOperand, depthAt_raiseOperand]
        have hm := hdeep' m him hmj
        split
        · next hi =>
          have hmem : m < operandLength t.depth (rest.drop (runAfter t rest).length) := by
            refine lt_operandLength fun k hkm => ?_
            rcases Nat.lt_or_ge i k with hik | hki
            · exact Nat.lt_trans (hfloor hi i (Nat.le_refl i)) (hdeep' k hik (Nat.le_trans hkm hmj))
            · exact hfloor hi k hki
          rw [if_pos hmem]
          exact Nat.add_lt_add_right hm _
        · exact Nat.lt_of_lt_of_le hm (Nat.le_add_right _ _)

/-- A token that all before it are deeper than is not raised, if it is no unary operator and
stands behind none. -/
theorem depthAt_raiseRuns_eq {ts : List Token} (r : Nat) (hr : isUnaryAt ts r = false)
    (hbefore : ∀ m, m + 1 = r → isUnaryAt ts m = false)
    (hdeep : ∀ m, m < r → depthAt ts r < depthAt ts m) :
    depthAt (raiseRuns ts) r = depthAt ts r := by
  induction ts using raiseRuns.induct generalizing r with
  | case1 => rw [raiseRuns]
  | case2 t rest more hmore ih =>
    rw [raiseRuns, if_pos hmore]
    cases r with
    | zero => rfl
    | succ r =>
      refine ih r hr (fun m hm => hbefore (m + 1) (congrArg (· + 1) hm)) fun m hm => ?_
      exact hdeep (m + 1) (Nat.succ_lt_succ hm)
  | case3 t rest more hmore ih =>
    have hne : runAfter t rest ≠ [] := fun he => hmore (List.isEmpty_iff.mpr he)
    subst more
    rcases Nat.lt_or_ge r ((runAfter t rest).length + 1) with hr' | hr'
    · rw [(run_spec hne hr').1] at hr
      cases hr
    obtain ⟨i, rfl⟩ := Nat.exists_eq_add_of_le hr'
    have hpos : 0 < i := by
      refine Nat.pos_of_ne_zero fun hi => ?_
      have hlast := hbefore (runAfter t rest).length (by rw [hi])
      rw [(run_spec hne (Nat.lt_succ_self _)).1] at hlast
      cases hlast
    have hkept : depthAt (raiseOperand t.depth ((runAfter t rest).length + 1)
          (rest.drop (runAfter t rest).length)) i =
        depthAt (rest.drop (runAfter t rest).length) i := by
      rw [depthAt_raiseOperand, if_neg, Nat.add_zero]
      intro hi
      have hfloor := floor_lt_of_lt_operandLength hi hpos (Nat.le_refl i)
      rw [← depthAt_behind_run] at hfloor
      exact Nat.lt_asymm hfloor (hdeep 0 (Nat.lt_of_lt_of_le (Nat.succ_pos _) hr'))
    rw [raiseRuns_of_run hne, depthAt_behind_raised_run, depthAt_behind_run, ← hkept]
    simp only [isUnaryAt] at hr hbefore ih
    refine ih i ?_ (fun m hm => ?_) fun m hm => ?_
    · rwa [operatorAt?_raiseOperand, ← operatorAt?_behind_run]
    · rw [operatorAt?_raiseOperand, ← operatorAt?_behind_run]
      exact hbefore _ (by omega)
    · rw [hkept, depthAt_raiseOperand, ← depthAt_behind_run, ← depthAt_behind_run]
      exact Nat.lt_of_lt_of_le (hdeep _ (Nat.add_lt_add_left hm _)) (Nat.le_add_right _ _)

/-- A token deeper than a binary operator behind it stays deeper than that, if all tokens between
them are and the last of them is no unary operator. -/
theorem depthAt_raiseRuns_lt_of_binary {ts : List Token} (q r : Nat) (hqr : q < r)
    (hr : isUnaryAt ts r = false) (hbefore : ∀ m, m + 1 = r → isUnaryAt ts m = false)
    (hdeep : ∀ m, q ≤ m → m < r → depthAt ts r < depthAt ts m) :
    depthAt (raiseRuns ts) r < depthAt (raiseRuns ts) q := by
  have hfront : ∀ {us : List Token} {q r : Nat}, q < r → isUnaryAt us r = false →
      (∀ m, m + 1 = r → isUnaryAt us m = false) → (∀ m, m < r → depthAt us r < depthAt us m) →
      depthAt (raiseRuns us) r < depthAt (raiseRuns us) q := by
    intro us q r hqr hr hbefore hdeep
    rw [depthAt_raiseRuns_eq r hr hbefore hdeep]
    exact Nat.lt_of_lt_of_le (hdeep q hqr) (le_depthAt_raiseRuns us q)
  induction ts using raiseRuns.induct generalizing q r with
  | case1 => exact absurd (hdeep q (Nat.le_refl q) hqr) (Nat.lt_irrefl _)
  | case2 t rest more hmore ih =>
    obtain ⟨r, rfl⟩ := Nat.exists_eq_add_one_of_ne_zero (Nat.ne_zero_of_lt hqr)
    cases q with
    | zero => exact hfront hqr hr hbefore fun m hm => hdeep m (Nat.zero_le m) hm
    | succ q =>
      rw [raiseRuns, if_pos hmore]
      refine ih q r (Nat.lt_of_succ_lt_succ hqr) hr
        (fun m hm => hbefore (m + 1) (congrArg (· + 1) hm)) fun m hqm hmr => ?_
      exact hdeep (m + 1) (Nat.succ_le_succ hqm) (Nat.succ_lt_succ hmr)
  | case3 t rest more hmore ih =>
    have hne : runAfter t rest ≠ [] := fun he => hmore (List.isEmpty_iff.mpr he)
    subst more
    rcases Nat.lt_or_ge q ((runAfter t rest).length + 1) with hq | hq
    · refine hfront hqr hr hbefore fun m hm => ?_
      rcases Nat.lt_or_ge m q with hmq | hqm
      · rw [(run_spec hne (Nat.lt_trans hmq hq)).2, ← (run_spec hne hq).2]
        exact hdeep q (Nat.le_refl q) hqr
      · exact hdeep m hqm hm
    · obtain ⟨i, rfl⟩ := Nat.exists_eq_add_of_le hq
      obtain ⟨j, rfl⟩ := Nat.exists_eq_add_of_le (Nat.le_trans hq (Nat.le_of_lt hqr))
      rw [raiseRuns_of_run hne, depthAt_behind_raised_run, depthAt_behind_raised_run]
      simp only [isUnaryAt] at hr hbefore ih
      refine ih i j (Nat.lt_of_add_lt_add_left hqr) ?_ (fun m hm => ?_) fun m him hmj => ?_
      · rwa [operatorAt?_raiseOperand, ← operatorAt?_behind_run]
      · rw [operatorAt?_raiseOperand, ← operatorAt?_behind_run]
        exact hbefore _ (by omega)
      · have hm := hdeep _ (Nat.add_le_add_left him _) (Nat.add_lt_add_left hmj _)
        rw [depthAt_behind_run, depthAt_behind_run] at hm
        rw [depthAt_raiseOperand, depthAt_raiseOperand]
        split
        · next hj =>
          rw [if_pos (Nat.lt_trans hmj hj)]
          exact Nat.add_lt_add_right hm _
        · exact Nat.lt_of_lt_of_le hm (Nat.le_add_right _ _)

end Token

end DialogueScript
