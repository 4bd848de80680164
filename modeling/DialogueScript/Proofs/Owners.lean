import DialogueScript.Proofs.Positional.Planner

/-!
# The owners of tokens

While a plan is drafted, a token belongs to the step that claimed it, and what it stands for is
the result at the top of the tree of that step. The top is found by following the chain of steps
that work on each other's results. Here the trees are those of the references alone: two steps
belong to one tree if references join them.

The chain finds the top because steps refer to earlier ones only and no result is waited for
twice (`Plan.Linear`), and it can be followed for a token because the step that claimed it has
been made, also halfway through the placing of an operator: a step that is not made yet has
claimed none of the tokens that are still to be bound (`Draft.Binds.frame`). That the tokens of a
tree are consecutive comes from the forest that the draft stands for.

Main statements:
1. `Plan.eq_chainEnd_iff`: the end of a chain is the one step of its tree that nothing works on.
2. `Forest.Represents.claims_iff`: the tokens of a tree are an interval.
3. `Draft.owners_at_place`: both of them whenever an operator is placed, for any list of tokens,
   and that the operands of a binary operator come from different trees.
-/

namespace DialogueScript

/-! ## Trees of references -/

namespace Plan

/-- The step with the index `a` works on the result of the step `b`. -/
def Uses (steps : List Step) (a b : Nat) : Prop := ∃ s, steps[a]? = some s ∧ s.uses b = true

/-- References join two steps, in whatever direction they lead. -/
def SameTree (steps : List Step) : Nat → Nat → Prop := Relation.EqvGen (Uses steps)

theorem mem_references_iff {steps : List Step} {b : Nat} :
    b ∈ references steps ↔ ∃ a, Uses steps a b := by
  rw [references, List.mem_flatMap]
  constructor
  · rintro ⟨s, hs, hb⟩
    obtain ⟨a, ha⟩ := List.mem_iff_getElem?.mp hs
    exact ⟨a, s, ha, Step.uses_iff.mpr hb⟩
  · rintro ⟨a, s, ha, hb⟩
    exact ⟨s, List.mem_of_getElem? ha, Step.uses_iff.mp hb⟩

theorem uses_concat {steps : List Step} {s : Step} {a b : Nat} :
    Uses (steps ++ [s]) a b ↔ Uses steps a b ∨ a = steps.length ∧ s.uses b = true := by
  unfold Uses
  rcases Nat.lt_trichotomy a steps.length with ha | rfl | ha
  · rw [List.getElem?_append_left ha]
    refine ⟨Or.inl, fun h => h.resolve_right fun he => ?_⟩
    exact Nat.ne_of_lt ha he.1
  · simp
  · have hnone : (steps ++ [s])[a]? = none := by
      rw [List.getElem?_eq_none_iff, List.length_append, List.length_singleton]
      exact ha
    rw [hnone, List.getElem?_eq_none (Nat.le_of_lt ha)]
    simp [Nat.ne_of_gt ha]

theorem SameTree.concat {steps : List Step} {a b : Nat} (h : SameTree steps a b) (s : Step) :
    SameTree (steps ++ [s]) a b :=
  Relation.EqvGen.mono (fun _ _ hu => uses_concat.mpr (Or.inl hu)) _ _ h

theorem Linear.of_concat {steps : List Step} {s : Step} (h : Linear (steps ++ [s])) :
    Linear steps where
  backward := (backward_append.mp h.backward).1
  nodup := by
    have hnodup := h.nodup
    rw [references_append] at hnodup
    exact (List.nodup_append.mp hnodup).1

open Draft (chainEnd chainEnd_concat chainEnd_of_unused)

/-- Following a chain does not lead out of a tree. -/
theorem sameTree_chainEnd (steps : List Step) (start : Nat) :
    SameTree steps start (chainEnd steps start) := by
  induction steps using List.reverseRecOn with
  | nil => exact .refl start
  | append_singleton steps s ih =>
    rw [chainEnd_concat]
    split
    · next hs =>
      refine .trans _ _ _ (ih.concat s) (.symm _ _ (.rel _ _ ?_))
      exact uses_concat.mpr (Or.inr ⟨rfl, hs⟩)
    · exact ih.concat s

theorem chainEnd_lt {steps : List Step} {start bound : Nat} (hs : start < bound)
    (hlen : steps.length ≤ bound) : chainEnd steps start < bound := by
  induction steps using List.reverseRecOn with
  | nil => exact hs
  | append_singleton steps s ih =>
    rw [List.length_append, List.length_singleton] at hlen
    rw [chainEnd_concat]
    split
    · exact hlen
    · exact ih (Nat.le_of_succ_le hlen)

/-- Nothing works on the result at the end of a chain. -/
theorem chainEnd_not_mem_references {steps : List Step} (h : Backward 0 steps) (start : Nat) :
    chainEnd steps start ∉ references steps := by
  induction steps using List.reverseRecOn with
  | nil => exact List.not_mem_nil
  | append_singleton steps s ih =>
    rw [chainEnd_concat]
    split
    · intro hm
      have hlt := lt_of_mem_references h hm
      rw [List.length_append, List.length_singleton] at hlt
      omega
    · next hs =>
      rw [references_append, List.mem_append, not_or]
      refine ⟨ih (backward_append.mp h).1, fun hm => hs (Step.uses_iff.mpr ?_)⟩
      simpa [references] using hm

/-- The chain from a step leads on from the step that works on its result. -/
theorem chainEnd_of_uses {steps : List Step} (h : Linear steps) {a b : Nat} (hu : Uses steps a b) :
    chainEnd steps b = chainEnd steps a := by
  induction steps using List.reverseRecOn with
  | nil =>
    obtain ⟨s, hs, _⟩ := hu
    exact nomatch hs
  | append_singleton steps s ih =>
    rw [chainEnd_concat, chainEnd_concat]
    rcases uses_concat.mp hu with hu | ⟨rfl, hs⟩
    · rw [ih h.of_concat hu]
    · obtain ⟨hfront, hback, _⟩ := backward_append.mp h.backward
      have hb : b ∉ references steps := fun hm => by
        have hnodup := h.nodup
        rw [references_append] at hnodup
        refine (List.nodup_append.mp hnodup).2.2 b hm b ?_ rfl
        simpa [references] using Step.uses_iff.mp hs
      have hself : steps.length ∉ references steps := fun hm => by
        have hlt := lt_of_mem_references hfront hm
        omega
      have hnot : s.uses steps.length ≠ true := fun hm => by
        have hlt := hback _ (Step.uses_iff.mp hm)
        omega
      rw [chainEnd_of_unused hb, chainEnd_of_unused hself, if_pos hs, if_neg hnot]

theorem SameTree.chainEnd_eq {steps : List Step} (h : Linear steps) {a b : Nat}
    (hs : SameTree steps a b) : chainEnd steps a = chainEnd steps b := by
  induction hs with
  | rel a b hu => exact (chainEnd_of_uses h hu).symm
  | refl a => rfl
  | symm a b _ ih => exact ih.symm
  | trans a b c _ _ ihab ihbc => exact ihab.trans ihbc

theorem sameTree_iff {steps : List Step} (h : Linear steps) {a b : Nat} :
    SameTree steps a b ↔ chainEnd steps a = chainEnd steps b := by
  refine ⟨SameTree.chainEnd_eq h, fun he => ?_⟩
  have hb := sameTree_chainEnd steps b
  rw [← he] at hb
  exact .trans _ _ _ (sameTree_chainEnd steps a) (.symm _ _ hb)

/-- The end of a chain is the one step of its tree that nothing works on. -/
theorem eq_chainEnd_iff {steps : List Step} (h : Linear steps) {k r : Nat} :
    r = chainEnd steps k ↔ SameTree steps k r ∧ ∀ a, ¬Uses steps a r := by
  constructor
  · rintro rfl
    refine ⟨sameTree_chainEnd steps k, fun a hu => ?_⟩
    exact chainEnd_not_mem_references h.backward k (mem_references_iff.mpr ⟨a, hu⟩)
  · rintro ⟨hs, hunused⟩
    have hr : r ∉ references steps := fun hm =>
      (mem_references_iff.mp hm).elim fun a hu => hunused a hu
    rw [hs.chainEnd_eq h, chainEnd_of_unused hr]

end Plan

/-! ## Tokens of a tree -/

def Draft.owner? (d : Draft) (index : Nat) : Option Nat := d.cells[index]?.bind Cell.owner

/-- A step of the tree of `k` has claimed the token with an index. -/
def Draft.Claims (d : Draft) (k index : Nat) : Prop :=
  ∃ owner, d.owner? index = some owner ∧ Plan.SameTree d.steps k owner

theorem Tree.mem_labels_of_owner {tree : Tree Nat} {above : Option Nat} {cell : Cell} {k : Nat}
    (hc : cell ∈ tree.cells above) (hk : cell.owner = some k) : k ∈ tree.labels ∨ above = some k := by
  induction tree generalizing above with
  | leaf t =>
    rw [List.mem_singleton.mp hc] at hk
    exact Or.inr hk
  | unary j t right ih =>
    left
    rcases List.mem_cons.mp hc with rfl | hc
    · cases hk
      exact List.mem_cons_self
    · rcases ih hc with h | h
      · exact List.mem_cons_of_mem _ h
      · cases h
        exact List.mem_cons_self
  | binary j left t right ihl ihr =>
    left
    have hside : ∀ {side : Tree Nat}, (k ∈ side.labels → k ∈ left.labels ++ right.labels) →
        k ∈ side.labels ∨ some j = some k → k ∈ j :: (left.labels ++ right.labels) := by
      rintro side hmem (h | h)
      · exact List.mem_cons_of_mem _ (hmem h)
      · cases h
        exact List.mem_cons_self
    rcases List.mem_append.mp hc with hc | hc
    · exact hside (List.mem_append_left _) (ihl hc)
    · rcases List.mem_cons.mp hc with rfl | hc
      · cases hk
        exact List.mem_cons_self
      · exact hside (List.mem_append_right _) (ihr hc)

theorem Tree.Recorded.label_lt {steps : List Step} {tree : Tree Nat} {k : Nat}
    (h : tree.Recorded steps) (hk : k ∈ tree.labels) : k < steps.length := by
  induction tree with
  | leaf t => exact absurd hk List.not_mem_nil
  | unary j t right ih =>
    rcases List.mem_cons.mp hk with rfl | hk
    · exact (List.getElem?_eq_some_iff.mp h.1).1
    · exact ih h.2 hk
  | binary j left t right ihl ihr =>
    rcases List.mem_cons.mp hk with rfl | hk
    · exact (List.getElem?_eq_some_iff.mp h.1).1
    · rcases List.mem_append.mp hk with hk | hk
      · exact ihl h.2.1 hk
      · exact ihr h.2.2 hk

namespace Forest

/-- A claimed cell of a forest stands in a tree that has the claiming step. -/
theorem exists_tree_of_owner {f : Forest} {cell : Cell} {k : Nat} (hc : cell ∈ cells f)
    (hk : cell.owner = some k) : ∃ tree, .grown tree ∈ f ∧ k ∈ tree.labels := by
  obtain ⟨p, hp, hc⟩ := List.mem_flatMap.mp hc
  cases p with
  | pending t =>
    rw [List.mem_singleton.mp hc] at hk
    exact nomatch hk
  | grown tree =>
    exact ⟨tree, hp, (tree.mem_labels_of_owner hc hk).resolve_right fun h => nomatch h⟩

namespace Represents

variable {d : Draft} {f : Forest}

theorem linear (h : Represents d f) : Plan.Linear d.steps :=
  ⟨h.backward, (List.nodup_append.mp h.nodup).1⟩

/-- The chain from a step that has claimed a token ends at the root of a tree. -/
theorem chainEnd_mem_roots {part : Forest} (h : Represents d f) (hpart : ∀ p ∈ part, p ∈ f)
    {cell : Cell} {k : Nat} (hc : cell ∈ Forest.cells part) (hk : cell.owner = some k) :
    Draft.chainEnd d.steps k ∈ roots part := by
  obtain ⟨tree, ht, hlabel⟩ := exists_tree_of_owner hc hk
  exact mem_roots_of_slot ht (h.chains tree (hpart _ ht) k hlabel)

theorem owner_lt (h : Represents d f) {index k : Nat} (hk : d.owner? index = some k) :
    k < d.steps.length := by
  obtain ⟨cell, hcell, hk⟩ := Option.bind_eq_some_iff.mp hk
  rw [h.cells] at hcell
  obtain ⟨tree, ht, hlabel⟩ := exists_tree_of_owner (List.mem_of_getElem? hcell) hk
  exact (h.recorded tree ht).label_lt hlabel

/-- The tree of a step that has been made is one of the forest. -/
theorem exists_split (h : Represents d f) {k : Nat} (hk : k < d.steps.length) :
    ∃ before tree after, f = before ++ .grown tree :: after ∧
      tree.slot = some (.result (Draft.chainEnd d.steps k)) := by
  have hlt := Plan.chainEnd_lt hk (Nat.le_refl _)
  have hroot : Draft.chainEnd d.steps k ∈ roots f :=
    (List.mem_append.mp (h.roots_perm.mem_iff.mpr (List.mem_range.mpr hlt))).resolve_left
      (Plan.chainEnd_not_mem_references h.backward k)
  obtain ⟨p, hp, hp'⟩ := List.mem_filterMap.mp hroot
  obtain ⟨before, after, hf⟩ := List.append_of_mem hp
  cases p with
  | pending t => exact nomatch hp'
  | grown tree =>
    refine ⟨before, tree, after, hf, ?_⟩
    have href : Operand.reference? tree.slot = some (Draft.chainEnd d.steps k) := hp'
    cases hslot : tree.slot with
    | none =>
      rw [hslot] at href
      exact nomatch href
    | some operand =>
      rw [hslot] at href
      cases operand with
      | result r =>
        cases href
        rfl
      | _ => exact nomatch href

/-- The tokens that the steps of one tree have claimed are consecutive. -/
theorem claims_iff (h : Represents d f) {k : Nat} (hk : k < d.steps.length) :
    ∃ start stop, start < stop ∧ ∀ i, d.Claims k i ↔ start ≤ i ∧ i < stop := by
  obtain ⟨before, tree, after, rfl, hslot⟩ := h.exists_split hk
  have hroots := (List.nodup_append.mp h.nodup).2.1
  rw [roots_append, roots_grown, hslot] at hroots
  obtain ⟨_, hback, hfront⟩ := List.nodup_append.mp hroots
  have hbehind := (List.nodup_append.mp hback).2.2
  have hmem : Draft.chainEnd d.steps k ∈
      (Operand.reference? (some (.result (Draft.chainEnd d.steps k)))).toList := List.mem_cons_self
  have hcells : d.cells = Forest.cells before ++ (tree.cells none ++ Forest.cells after) := by
    rw [h.cells, cells_append, cells_cons]
    rfl
  have hlen : (tree.cells none).length = tree.tokens.length := tree.length_cells none
  refine ⟨(Forest.cells before).length, (Forest.cells before).length + tree.tokens.length, ?_, fun i => ?_⟩
  · exact Nat.lt_add_of_pos_right (List.length_pos_iff.mpr tree.tokens_ne_nil)
  unfold Draft.Claims Draft.owner?
  rw [hcells]
  constructor
  · rintro ⟨owner, howner, hsame⟩
    obtain ⟨cell, hcell, hk'⟩ := Option.bind_eq_some_iff.mp howner
    rw [Plan.sameTree_iff h.linear] at hsame
    rcases Nat.lt_or_ge i (Forest.cells before).length with hi | hi
    · rw [List.getElem?_append_left hi] at hcell
      have hroot := h.chainEnd_mem_roots
        (fun p (hp : p ∈ before) => List.mem_append_left _ hp) (List.mem_of_getElem? hcell) hk'
      exact absurd rfl (hfront _ (hsame ▸ hroot) _ (List.mem_append_left _ hmem))
    · refine ⟨hi, Nat.lt_of_not_le fun hle => ?_⟩
      rw [List.getElem?_append_right hi, List.getElem?_append_right (by omega)] at hcell
      have hroot := h.chainEnd_mem_roots
        (fun p (hp : p ∈ after) => List.mem_append_right _ (List.mem_cons_of_mem _ hp))
        (List.mem_of_getElem? hcell) hk'
      exact absurd rfl (hbehind _ hmem _ (hsame ▸ hroot))
  · rintro ⟨hi, hlt⟩
    have hin : i - (Forest.cells before).length < (tree.cells none).length := by omega
    rw [List.getElem?_append_right hi, List.getElem?_append_left hin,
      List.getElem?_eq_getElem hin, Option.bind_some]
    have hcell := List.getElem_mem hin
    obtain ⟨owner, howner⟩ :=
      Option.ne_none_iff_exists'.mp (tree.owner_ne_none ⟨_, hslot⟩ _ hcell)
    refine ⟨owner, howner, (Plan.sameTree_iff h.linear).mpr ?_⟩
    have hlabel := (tree.mem_labels_of_owner hcell howner).resolve_right fun hn => nomatch hn
    have hchain := h.chains tree (List.mem_append_right _ List.mem_cons_self) owner hlabel
    rw [hslot, Option.some.injEq, Operand.result.injEq] at hchain
    exact hchain

/-- Nothing has claimed the operator of a site that is still to be placed. -/
theorem owner?_of_mem_sites (h : Represents d f) {site : Site} (hs : site ∈ sites 0 f) :
    d.owner? site.index = none := by
  obtain ⟨before, t, after, rfl, hm⟩ := exists_of_mem_sites hs
  rw [Nat.zero_add] at hm
  rw [Draft.owner?, h.cells, cells_append, cells_cons, hm.index_eq, ← length_cells]
  exact congrArg (Option.bind · Cell.owner) (Positional.getElem?_append_cons (Forest.cells before) _ _)

end Represents

/-- A run over some of the pending operators leaves the others pending. -/
theorem represents_of_run {d d' : Draft} {f : Forest} {placed rest : List Site}
    (h : Represents d f) (hs : (placed ++ rest).Perm (sites 0 f))
    (hr : placed.foldlM Draft.place d = .ok d') :
    ∃ g, Represents d' g ∧ rest.Perm (sites 0 g) := by
  induction placed generalizing d f with
  | nil =>
    cases hr
    exact ⟨f, h, hs⟩
  | cons site placed ih =>
    rw [List.foldlM_cons] at hr
    cases hp : d.place site with
    | error e =>
      rw [hp] at hr
      exact nomatch hr
    | ok d₁ =>
      rw [hp] at hr
      obtain ⟨before, t, after, rfl, hm⟩ :=
        exists_of_mem_sites (hs.mem_iff.mp List.mem_cons_self)
      rw [Nat.zero_add] at hm
      obtain ⟨g, hg, hrep⟩ := grows_of_place h hm hp
      exact ih hrep (hs.trans hg.sites_perm).cons_inv hr

end Forest

/-! ## Binding -/

namespace Draft

/-- An operand that placing an operator binds: the draft at that moment, and the index of the
token. The right operand is bound after the left one. -/
inductive Binds (d : Draft) (site : Site) : Draft → Nat → Prop
  | left {index : Nat} : site.operator.isUnary = false → site.index = index + 1 →
      Binds d site (d.claim site.index) index
  | right {left : Option Operand} {e : Draft} :
      (d.claim site.index).bindLeft site = .ok (left, e) → Binds d site e (site.index + 1)

theorem owner?_claim {d : Draft} {index j : Nat} (h : index ≠ j) :
    (d.claim index).owner? j = d.owner? j := by
  show (d.cells.modify index _)[j]?.bind Cell.owner = _
  rw [List.getElem?_modify_ne _ _ h]
  rfl

/-- Binding an operand touches no token but its own. -/
theorem owner?_bind {d e : Draft} {site : Site} {index j : Nat} {operand : Operand}
    (hb : d.bind site index = .ok (operand, e)) (h : index ≠ j) : e.owner? j = d.owner? j := by
  unfold bind at hb
  split at hb
  · exact nomatch hb
  split at hb
  · cases hb
    rfl
  · exact nomatch hb
  · cases hb
    exact owner?_claim h
  · cases hb
    exact owner?_claim h

theorem owner?_bindLeft {d e : Draft} {site : Site} {left : Option Operand} {j : Nat}
    (hb : d.bindLeft site = .ok (left, e)) (h : site.index ≤ j) : e.owner? j = d.owner? j := by
  unfold bindLeft at hb
  split at hb
  · cases hb
    rfl
  split at hb
  · exact nomatch hb
  · next index hindex =>
    cases hbind : d.bind site index with
    | error fault =>
      rw [hbind] at hb
      exact nomatch hb
    | ok bound =>
      rw [hbind] at hb
      cases hb
      exact owner?_bind hbind (by omega)

/-- Halfway through the placing of an operator, the token that is bound next belongs to whom it
belonged before, and no step has been added. -/
theorem Binds.frame {d e : Draft} {site : Site} {index : Nat} (h : d.Binds site e index) :
    e.steps = d.steps ∧ e.owner? index = d.owner? index := by
  cases h with
  | left _ hindex => exact ⟨rfl, owner?_claim (by omega)⟩
  | right hb =>
    refine ⟨(steps_of_bindLeft hb).trans rfl, ?_⟩
    rw [owner?_bindLeft hb (Nat.le_succ _), owner?_claim (by omega)]

theorem bind_of_owner? {d : Draft} {site : Site} {index k : Nat} (h : d.owner? index = some k) :
    d.bind site index = .ok (.result (chainEnd d.steps k), d) := by
  obtain ⟨⟨token, owner⟩, hcell, rfl⟩ := Option.bind_eq_some_iff.mp h
  rw [bind, hcell]

/-- Only a claimed token is taken as the result of a step. -/
theorem owner?_of_bind_result {d e : Draft} {site : Site} {index r : Nat}
    (h : d.bind site index = .ok (.result r, e)) :
    ∃ k, d.owner? index = some k ∧ r = chainEnd d.steps k := by
  unfold bind at h
  split at h
  · exact nomatch h
  next cell hcell =>
  split at h
  · next owner howner =>
    cases h
    exact ⟨owner, by rw [owner?, hcell, Option.bind_some, howner], rfl⟩
  · exact nomatch h
  · exact nomatch h
  · exact nomatch h

/-- The operands of a binary operator on both of whose sides claimed tokens stand. -/
theorem owners_of_results {d e₁ e₂ : Draft} {site : Site} {left right : Nat}
    (hl : (d.claim site.index).bindLeft site = .ok (some (.result left), e₁))
    (hr : e₁.bind site (site.index + 1) = .ok (.result right, e₂)) :
    ∃ index k k', site.index = index + 1 ∧ d.owner? index = some k ∧ left = chainEnd d.steps k ∧
      d.owner? (index + 2) = some k' ∧ right = chainEnd d.steps k' := by
  obtain ⟨hsteps, howner⟩ := (Binds.right hl).frame
  obtain ⟨k', hk', rfl⟩ := owner?_of_bind_result hr
  rw [howner] at hk'
  unfold bindLeft at hl
  split at hl
  · exact nomatch hl
  split at hl
  · exact nomatch hl
  · next index hindex =>
    cases hbind : (d.claim site.index).bind site index with
    | error fault =>
      rw [hbind] at hl
      exact nomatch hl
    | ok bound =>
      obtain ⟨operand, e⟩ := bound
      rw [hbind] at hl
      cases hl
      obtain ⟨k, hk, rfl⟩ := owner?_of_bind_result hbind
      rw [owner?_claim (by omega)] at hk
      rw [hindex] at hk'
      exact ⟨index, k, k', hindex, hk, rfl, hk', by rw [hsteps]⟩

open Plan (SameTree Uses)

/-- Whatever the tokens of an expression are, whenever the next operator is placed:
1. If binding an operand meets a token that a step has claimed, this step has been made.
   Searching the steps for the one that works on the result, and then for the one that works on
   the result of that, comes to an end. It ends at the result that is bound, which is that of
   the one step of the same tree that nothing works on.
2. The tokens that the steps of one tree have claimed are consecutive, and no token is claimed
   by steps of two trees.
3. The left and the right operand of one operator are not the result of the same step. -/
theorem owners_at_place (tokens : List Token) {placed rest : List Site} {site : Site} {d : Draft}
    (hs : Site.schedule (Token.raiseRuns tokens) = placed ++ site :: rest)
    (hr : placed.foldlM place (ofTokens (Token.raiseRuns tokens)) = .ok d) :
    (∀ e index k, d.Binds site e index → e.owner? index = some k →
      k < e.steps.length ∧
      ∃ r, Positional.cascade e.steps (e.steps.length + 1) k = some r ∧
        e.bind site index = .ok (.result r, e) ∧
        ∀ j, j = r ↔ j < e.steps.length ∧ SameTree e.steps k j ∧ ∀ a, ¬Uses e.steps a j) ∧
    (∀ k < d.steps.length, ∃ start stop, start < stop ∧
      ∀ i, d.Claims k i ↔ start ≤ i ∧ i < stop) ∧
    (∀ k k' i, d.Claims k i → d.Claims k' i → SameTree d.steps k k') ∧
    ∀ left right e₁ e₂, (d.claim site.index).bindLeft site = .ok (some (.result left), e₁) →
      e₁.bind site (site.index + 1) = .ok (.result right, e₂) → left ≠ right := by
  have hperm := Site.schedule_perm (Token.raiseRuns tokens)
  rw [← Forest.sites_ofTokens, hs] at hperm
  obtain ⟨f, hrep, hpending⟩ :=
    Forest.represents_of_run (Forest.represents_ofTokens _) hperm hr
  have hsite : site ∈ Forest.sites 0 f := hpending.mem_iff.mp List.mem_cons_self
  refine ⟨fun e index k hbinds hk => ?_, fun k hk => hrep.claims_iff hk, ?_, ?_⟩
  · obtain ⟨hsteps, howner⟩ := hbinds.frame
    have hlt := hrep.owner_lt (howner ▸ hk)
    rw [hsteps]
    refine ⟨hlt, chainEnd d.steps k, Positional.cascade_eq hrep.backward k, ?_, fun j => ?_⟩
    · rw [bind_of_owner? hk, hsteps]
    · rw [Plan.eq_chainEnd_iff hrep.linear]
      refine ⟨fun hj => ⟨?_, hj⟩, fun hj => hj.2⟩
      rw [(Plan.eq_chainEnd_iff hrep.linear).mpr hj]
      exact Plan.chainEnd_lt hlt (Nat.le_refl _)
  · rintro k k' i ⟨owner, howner, hsame⟩ ⟨owner', howner', hsame'⟩
    obtain rfl := Option.some.inj (howner.symm.trans howner')
    exact .trans _ _ _ hsame (.symm _ _ hsame')
  · -- One tree on both sides would hold the token of the operator between them.
    rintro left right e₁ e₂ hl hr' rfl
    obtain ⟨index, k, k', hindex, hk, rfl, hk', heq⟩ := owners_of_results hl hr'
    obtain ⟨start, stop, _, hclaims⟩ := hrep.claims_iff (hrep.owner_lt hk)
    have hleft := (hclaims index).mp ⟨k, hk, .refl k⟩
    have hright := (hclaims (index + 2)).mp ⟨k', hk', (Plan.sameTree_iff hrep.linear).mpr heq⟩
    obtain ⟨owner, howner, _⟩ := (hclaims site.index).mpr (by omega)
    rw [hrep.owner?_of_mem_sites hsite] at howner
    exact nomatch howner

/-- In `a*b+c*d*e` the token `c` right behind the sum belongs to the first product of two, and
the sum takes the second one, on which nothing works. -/
theorem owners_at_place_sum_of_products :
    let times (i : Nat) : Token := ⟨.operator .multiply, 0, i⟩
    let name (s : String) (i : Nat) : Token := ⟨.variable s, 0, i⟩
    let steps : List Step := [⟨some .multiply, some (.variable "a"), some (.variable "b")⟩,
      ⟨some .multiply, some (.variable "c"), some (.variable "d")⟩,
      ⟨some .multiply, some (.result 1), some (.variable "e")⟩]
    let sum : Site := ⟨3, .add, 0, 3⟩
    let tokens := [name "a" 0, times 1, name "b" 2, ⟨.operator .add, 0, 3⟩, name "c" 4, times 5,
      name "d" 6, times 7, name "e" 8]
    let placed : List Site := [⟨1, .multiply, 0, 1⟩, ⟨5, .multiply, 0, 5⟩, ⟨7, .multiply, 0, 7⟩]
    Site.schedule (Token.raiseRuns tokens) = placed ++ [sum] ∧
    ∃ d, placed.foldlM place (ofTokens (Token.raiseRuns tokens)) = .ok d ∧ d.steps = steps ∧
      d.owner? 4 = some 1 ∧ SameTree steps 1 2 ∧ ∀ a, ¬Uses steps a 2 := by
  intro times name steps sum tokens placed
  have hs : Site.schedule (Token.raiseRuns tokens) = placed ++ [sum] := by cbv
  have hr : placed.foldlM place (ofTokens (Token.raiseRuns tokens)) = .ok ⟨[
      ⟨name "a" 0, some 0⟩, ⟨times 1, some 0⟩, ⟨name "b" 2, some 0⟩, ⟨⟨.operator .add, 0, 3⟩, none⟩,
      ⟨name "c" 4, some 1⟩, ⟨times 5, some 1⟩, ⟨name "d" 6, some 1⟩, ⟨times 7, some 2⟩,
      ⟨name "e" 8, some 2⟩], steps⟩ := by cbv
  refine ⟨hs, _, hr, rfl, rfl, ?_⟩
  obtain ⟨_, r, hcascade, _, htop⟩ :=
    (owners_at_place tokens hs hr).1 _ _ 1 (@Binds.right _ _ (some (.result 0)) _ rfl) rfl
  cases hcascade
  exact ((htop 2).mp rfl).2

end Draft

end DialogueScript
