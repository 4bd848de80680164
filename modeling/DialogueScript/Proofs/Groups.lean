import DialogueScript.Proofs.Parentheses
import DialogueScript.Proofs.Stretches

/-!
# What parentheses delimit

Parentheses are no tokens. A pair of them puts the tokens between them deeper, so that the
operators there come first, and each operator takes what stands next to it. Whether the pair
delimits an operand depends on its ends: in `(a+)b` the sum takes the `b` outside, and the
expression is accepted. A pair delimits if there is something in it that begins and ends as an
operand does.

Two more things have to be excluded. Operands that stand side by side inside of a pair have no
operator that joins them. And an operator next to the pair must not dangle from a group of its
own: in `(a*)(b+c)` the product is as deep as the sum and takes the `b`.

Main statements:
1. `Tree.taken_slot`: an operand slot covers the tokens of the tree that it takes.
2. `Plan.delimits_of_rounded` and `Plan.Delimits.rounded`: a group of deeper tokens and its ends.
3. `Token.split_at_pair`: the tokens of a pair of parentheses.
4. `Plan.parentheses_delimit`: pairs of parentheses in an expression.
-/

namespace DialogueScript

namespace Plan

/-! ## What a step covers -/

/-- The indices of the tokens that an operand slot takes, for a cover of the steps. A token that
is an operand by itself stands at an index. -/
def taken (cover : Nat → List Nat) (index : Nat) : Option Operand → List Nat
  | none => []
  | some (.result k) => cover k
  | some _ => [index]

/-- The indices of the tokens that a step covers: those of its operands, and between them that
of its operator. -/
def covered (sites : List Site) (steps : List Step) (index : Nat) : List Nat :=
  let earlier k := if _ : k < index then covered sites steps k else []
  match steps[index]?, sites[index]? with
  | some s, some site =>
    taken earlier (site.index - 1) s.left ++ site.index :: taken earlier (site.index + 1) s.right
  | _, _ => []
termination_by index

/-- A group of tokens, given by their indices, is delimited: it is not empty, it is one operand,
an operator inside takes nothing from outside, and each operand of an operator outside takes
all of the group or nothing of it. -/
structure Delimits (sites : List Site) (steps : List Step) (group : List Nat) : Prop where
  filled : group ≠ []
  whole : group.length = 1 ∨ ∃ k < steps.length, covered sites steps k = group
  inner : ∀ (k : Nat) (site : Site), sites[k]? = some site → site.index ∈ group →
    covered sites steps k ⊆ group
  outer : ∀ (k : Nat) (site : Site) (s : Step), sites[k]? = some site → steps[k]? = some s →
    site.index ∉ group →
    ∀ operand ∈ [taken (covered sites steps) (site.index - 1) s.left,
      taken (covered sites steps) (site.index + 1) s.right],
      operand.Disjoint group ∨ group ⊆ operand

theorem taken_congr {f g : Nat → List Nat} {index : Nat} {operand : Option Operand}
    (h : ∀ k, operand = some (.result k) → f k = g k) :
    taken f index operand = taken g index operand := by
  rcases operand with _ | (v | name | k)
  · rfl
  · rfl
  · rfl
  · exact h k rfl

/-- In a plan that refers backward, a step covers what its operands take. -/
theorem covered_eq {sites : List Site} {steps : List Step} {k : Nat} {s : Step} {site : Site}
    (hb : Backward 0 steps) (hs : steps[k]? = some s) (hsite : sites[k]? = some site) :
    covered sites steps k = taken (covered sites steps) (site.index - 1) s.left ++
      site.index :: taken (covered sites steps) (site.index + 1) s.right := by
  have hearlier : ∀ j ∈ s.references,
      (if _ : j < k then covered sites steps j else []) = covered sites steps j :=
    fun j hj => dif_pos (Nat.zero_add k ▸ hb.reference_lt hs hj)
  rw [covered]
  simp only [hs, hsite]
  rw [taken_congr fun j hj => hearlier j (Step.mem_references.mpr (Or.inl hj)),
    taken_congr fun j hj => hearlier j (Step.mem_references.mpr (Or.inr hj))]

end Plan

namespace Tree

open Plan

/-- An operand slot takes the tokens of its tree. -/
theorem taken_slot {sites : List Site} {steps : List Step} {tree : Tree Nat} {start index : Nat}
    (hb : Backward 0 steps) (hr : tree.Recorded steps) (hv : tree.Valid)
    (hs : tree.Sited sites start) (hi : tree.tokens.length = 1 → index = start) :
    taken (covered sites steps) index tree.slot = List.range' start tree.tokens.length := by
  induction tree generalizing start index with
  | leaf t =>
    obtain ⟨operand, ho, href⟩ := Token.operand?_of_operator? hv
    rw [slot, ho, hi rfl]
    cases operand with
    | result k => cases href
    | literal v => rfl
    | «variable» name => rfl
  | unary k t right ih =>
    obtain ⟨⟨site, hsite, rfl⟩, hright⟩ := hs
    show covered sites steps k = _
    rw [covered_eq hb hr.1 hsite, ih hr.2 hv.2 hright fun _ => rfl]
    rfl
  | binary k left t right ihl ihr =>
    obtain ⟨hleft, ⟨site, hsite, hindex⟩, hright⟩ := hs
    show covered sites steps k = _
    rw [covered_eq hb hr.1 hsite, hindex, ihr hr.2.2 hv.2.2 hright fun _ => rfl,
      ihl hr.2.1 hv.2.1 hleft fun hone => by rw [hone]; exact Nat.add_sub_cancel start 1,
      tokens, List.length_append, List.length_cons, ← List.range'_append_1]
    rfl

/-- The steps and sites of a plan say of an operator what the tree says: where it stands, and
which tokens it takes. -/
structure Stretch.Filed (sites : List Site) (steps : List Step) (s : Stretch) : Prop where
  site : ∃ site, sites[s.step]? = some site ∧ site.index = s.index
  step : ∃ step, steps[s.step]? = some step ∧
    taken (covered sites steps) (s.index - 1) step.left = List.range' s.first (s.index - s.first) ∧
    taken (covered sites steps) (s.index + 1) step.right =
      List.range' (s.index + 1) (s.stop - (s.index + 1))

theorem filed_of_mem_stretches {sites : List Site} {steps : List Step} {tree : Tree Nat}
    {start : Nat} (hb : Backward 0 steps) (hr : tree.Recorded steps) (hv : tree.Valid)
    (hs : tree.Sited sites start) {s : Stretch} (h : s ∈ tree.stretches start) :
    s.Filed sites steps := by
  induction tree generalizing start with
  | leaf t => exact absurd h List.not_mem_nil
  | unary k t right ih =>
    rcases List.mem_cons.mp h with rfl | h
    · refine ⟨hs.1, _, hr.1, ?_, ?_⟩
      · rw [Nat.sub_self]
        rfl
      · rw [Nat.add_sub_cancel_left]
        exact right.taken_slot hb hr.2 hv.2 hs.2 fun _ => rfl
    · exact ih hr.2 hv.2 hs.2 h
  | binary k left t right ihl ihr =>
    rcases mem_stretches_binary.mp h with rfl | h | h
    · refine ⟨hs.2.1, _, hr.1, ?_, ?_⟩
      · rw [Nat.add_sub_cancel_left]
        refine left.taken_slot hb hr.2.1 hv.2.1 hs.1 fun hone => ?_
        rw [hone]
        exact Nat.add_sub_cancel start 1
      · rw [Nat.add_sub_cancel_left]
        exact right.taken_slot hb hr.2.2 hv.2.2 hs.2.2 fun _ => rfl
    · exact ihl hr.2.1 hv.2.1 hs.1 h
    · exact ihr hr.2.2 hv.2.2 hs.2.2 h

theorem Stretch.Filed.covered_eq {sites : List Site} {steps : List Step} {s : Stretch}
    (h : s.Filed sites steps) (hb : Backward 0 steps) (hfirst : s.first ≤ s.index)
    (hstop : s.index + 1 < s.stop) :
    covered sites steps s.step = List.range' s.first (s.stop - s.first) := by
  obtain ⟨⟨site, hsite, hindex⟩, step, hstep, hleft, hright⟩ := h
  have hlen : s.stop - s.first = s.index - s.first + (s.stop - (s.index + 1) + 1) := by omega
  have hfrom : s.first + (s.index - s.first) = s.index := by omega
  rw [Plan.covered_eq hb hstep hsite, hindex, hleft, hright, hlen, ← List.range'_append_1, hfrom]
  rfl

end Tree

namespace Site

theorem spec_of_mem_ofTokens {ts : List Token} {site : Site} (h : site ∈ ofTokens 0 ts) :
    Token.operatorAt? ts site.index = some site.operator ∧
      Token.depthAt ts site.index = site.depth := by
  rw [← Forest.sites_ofTokens] at h
  obtain ⟨before, t, after, hts, hm⟩ := Forest.exists_of_mem_sites h
  have hget : ts[site.index]? = some t := by
    rw [← Forest.tokens_ofTokens ts, hts, hm.index_eq, Forest.tokens_append, Forest.tokens_cons]
    simp [Piece.tokens]
  rw [Token.operatorAt?, Token.depthAt, hget]
  exact ⟨hm.operator_eq, hm.depth_eq.symm⟩

theorem exists_mem_ofTokens {ts : List Token} {i : Nat} (h : Token.operatorAt? ts i ≠ none)
    (start : Nat) : ∃ site ∈ ofTokens start ts, site.index = start + i := by
  induction ts generalizing i start with
  | nil => exact absurd rfl h
  | cons t ts ih =>
    cases i with
    | zero =>
      obtain ⟨o, ho⟩ := Option.ne_none_iff_exists'.mp h
      have ho : t.operator? = some o := ho
      rw [ofTokens, ho]
      exact ⟨_, List.mem_cons_self, rfl⟩
    | succ i =>
      obtain ⟨site, hsite, hindex⟩ := ih h (start + 1)
      refine ⟨site, ?_, by omega⟩
      rw [ofTokens]
      split
      · exact List.mem_cons_of_mem _ hsite
      · exact hsite

theorem precedes_of_lt {ts : List Token} {a b : Nat} {x y : Site} (ha : (schedule ts)[a]? = some x)
    (hb : (schedule ts)[b]? = some y) (hab : a < b) : x.Precedes y := by
  obtain ⟨ha', rfl⟩ := List.getElem?_eq_some_iff.mp ha
  obtain ⟨hb', rfl⟩ := List.getElem?_eq_some_iff.mp hb
  exact List.pairwise_iff_getElem.mp (pairwise_schedule ts) a b ha' hb' hab

/-- Of two operators the deeper one comes first. -/
theorem lt_of_depth_lt {ts : List Token} {a b : Nat} {x y : Site} (ha : (schedule ts)[a]? = some x)
    (hb : (schedule ts)[b]? = some y) (h : y.depth < x.depth) : a < b := by
  rcases Nat.lt_trichotomy a b with hab | rfl | hba
  · exact hab
  · rw [ha] at hb
    cases hb
    exact absurd h (Nat.lt_irrefl _)
  · have := bindsBefore_iff.mp (precedes_of_lt hb ha hba).bindsBefore
    omega

/-- No operator is scheduled twice. -/
theorem eq_of_index_eq {ts : List Token} {a b : Nat} {x y : Site} (ha : (schedule ts)[a]? = some x)
    (hb : (schedule ts)[b]? = some y) (h : x.index = y.index) : a = b := by
  have hne : ∀ {u v : Site}, u.Precedes v → u.index ≠ v.index := by
    rintro u v (⟨hlt, _⟩ | ⟨hlt, _⟩)
    · exact Nat.ne_of_lt hlt
    · exact Nat.ne_of_gt hlt
  rcases Nat.lt_trichotomy a b with hab | hab | hba
  · exact absurd h (hne (precedes_of_lt ha hb hab))
  · exact hab
  · exact absurd h.symm (hne (precedes_of_lt hb ha hba))

end Site

namespace Plan

open DialogueScript.Tree

/-! ## The stretches of a plan -/

theorem Grown.descending {steps : List Step} {tokens : List Token} {trees : List (Tree Nat)}
    (hg : Grown steps tokens trees) : ∀ tree ∈ trees, tree.Descending :=
  fun tree ht => ((hg.recorded tree ht).descending hg.backward).1

section Row

variable {ts : List Token} {steps : List Step} {trees : List (Tree Nat)}
  (hg : Grown steps (Token.raiseRuns ts) trees)
  (hs : Forest.Sited (Site.schedule (Token.raiseRuns ts)) 0 (trees.map .grown))

include hg hs in
theorem filed_of_mem_row {s : Stretch} (h : s ∈ rowStretches 0 trees) :
    s.Filed (Site.schedule (Token.raiseRuns ts)) steps := by
  obtain ⟨before, tree, after, rfl, hmem⟩ := exists_of_mem_rowStretches h
  have htree : tree ∈ before ++ tree :: after := List.mem_append_right _ List.mem_cons_self
  rw [List.map_append, Forest.sited_append] at hs
  have hsited := hs.2.1 tree rfl
  rw [Forest.tokens, List.flatMap_map] at hsited
  exact filed_of_mem_stretches hg.backward (hg.recorded tree htree) (hg.valid tree htree) hsited
    hmem

include hg hs in
/-- The step of an operator covers its stretch. -/
theorem covered_of_mem_row {s : Stretch} (h : s ∈ rowStretches 0 trees) :
    covered (Site.schedule (Token.raiseRuns ts)) steps s.step =
      List.range' s.first (s.stop - s.first) := by
  obtain ⟨_, hfirst, hstop⟩ := bounds_of_mem_rowStretches h
  exact (filed_of_mem_row hg hs h).covered_eq hg.backward hfirst hstop

include hg in
/-- The operators of the stretches are those of the tokens. -/
theorem operator_of_mem_row {s : Stretch} (h : s ∈ rowStretches 0 trees) :
    ∃ o, Token.operatorAt? ts s.index = some o ∧ (o.isUnary = true ↔ s.first = s.index) := by
  obtain ⟨before, tree, after, rfl, hmem⟩ := exists_of_mem_rowStretches h
  obtain ⟨o, ho, hunary⟩ := operator_of_mem_stretches
    (hg.valid tree (List.mem_append_right _ List.mem_cons_self)) hmem
  have hrow := map_operator_rowStretches hg.valid 0
  have hsite := List.mem_map_of_mem (f := fun s : Stretch => (s.index, s.operator)) h
  rw [hrow, hg.tokens_eq] at hsite
  obtain ⟨site, hsite, he⟩ := List.mem_map.mp hsite
  obtain ⟨hindex, hop⟩ := Prod.mk.inj he
  refine ⟨o, ?_, hunary⟩
  rw [← Token.operatorAt?_raiseRuns, ← hindex, (Site.spec_of_mem_ofTokens hsite).1, hop, ho]

include hg in
/-- Every operator has its stretch. -/
theorem exists_mem_row {i : Nat} (h : Token.operatorAt? ts i ≠ none) :
    ∃ s ∈ rowStretches 0 trees, s.index = i := by
  rw [← Token.operatorAt?_raiseRuns] at h
  obtain ⟨site, hsite, hindex⟩ := Site.exists_mem_ofTokens h 0
  rw [← hg.tokens_eq] at hsite
  have hmem := List.mem_map_of_mem (f := fun site : Site => (site.index, some site.operator)) hsite
  rw [← map_operator_rowStretches hg.valid 0] at hmem
  obtain ⟨s, hs, he⟩ := List.mem_map.mp hmem
  exact ⟨s, hs, by rw [(Prod.mk.inj he).1, hindex, Nat.zero_add]⟩

include hg hs in
/-- The step of a stretch has the site of its operator. -/
theorem site_of_mem_row {s : Stretch} (h : s ∈ rowStretches 0 trees) :
    ∃ site, (Site.schedule (Token.raiseRuns ts))[s.step]? = some site ∧ site.index = s.index ∧
      Token.operatorAt? ts s.index = some site.operator ∧
      Token.depthAt (Token.raiseRuns ts) s.index = site.depth := by
  obtain ⟨site, hsite, hindex⟩ := (filed_of_mem_row hg hs h).site
  have hspec := Site.spec_of_mem_ofTokens
    ((Site.schedule_perm _).mem_iff.mp (List.mem_of_getElem? hsite))
  rw [hindex, Token.operatorAt?_raiseRuns] at hspec
  exact ⟨site, hsite, hindex, hspec⟩

include hg hs in
theorem exists_mem_row_of_site {k : Nat} {site : Site}
    (h : (Site.schedule (Token.raiseRuns ts))[k]? = some site) :
    ∃ s ∈ rowStretches 0 trees, s.step = k ∧ s.index = site.index := by
  have hspec := Site.spec_of_mem_ofTokens
    ((Site.schedule_perm _).mem_iff.mp (List.mem_of_getElem? h))
  rw [Token.operatorAt?_raiseRuns] at hspec
  obtain ⟨s, hmem, hindex⟩ := exists_mem_row hg (hspec.1 ▸ Option.some_ne_none _)
  obtain ⟨site', hsite', hindex', _⟩ := site_of_mem_row hg hs hmem
  exact ⟨s, hmem, Site.eq_of_index_eq hsite' h (hindex'.trans hindex), hindex⟩

include hg hs in
theorem step_lt_of_depthAt_lt {s s' : Stretch} (h : s ∈ rowStretches 0 trees)
    (h' : s' ∈ rowStretches 0 trees)
    (hlt : Token.depthAt (Token.raiseRuns ts) s'.index <
      Token.depthAt (Token.raiseRuns ts) s.index) :
    s.step < s'.step := by
  obtain ⟨site, hsite, _, _, hdepth⟩ := site_of_mem_row hg hs h
  obtain ⟨site', hsite', _, _, hdepth'⟩ := site_of_mem_row hg hs h'
  rw [hdepth, hdepth'] at hlt
  exact Site.lt_of_depth_lt hsite hsite' hlt

include hg hs in
/-- Behind a unary operator of an accepted expression stands no binary one, and a unary one has
to come first. -/
theorem chained_raiseRuns : Token.Chained (Token.raiseRuns ts) := by
  have horder : ∀ {o : Operator}, o.isUnary = true → o.order = 10 := by
    intro o ho
    cases o <;> first | rfl | cases ho
  intro i hu ho
  rw [Token.isUnaryAt_raiseRuns] at hu ⊢
  rw [Token.operatorAt?_raiseRuns] at ho
  have hi : Token.operatorAt? ts i ≠ none := by
    intro hnone
    rw [Token.isUnaryAt, hnone] at hu
    cases hu
  obtain ⟨s, hmem, hindex⟩ := exists_mem_row hg hi
  obtain ⟨s', hmem', hindex'⟩ := exists_mem_row hg ho
  obtain ⟨hfirst, hstep⟩ :=
    next_of_mem_rowStretches hg.descending hmem hmem' (by rw [hindex, hindex'])
  obtain ⟨o, hop, hunary⟩ := operator_of_mem_row hg hmem'
  have hbounds := bounds_of_mem_rowStretches hmem'
  have hu' : o.isUnary = true := hunary.mpr (by omega)
  obtain ⟨site, hsite, hsi, hso, hsd⟩ := site_of_mem_row hg hs hmem
  obtain ⟨site', hsite', hsi', hso', hsd'⟩ := site_of_mem_row hg hs hmem'
  rw [hindex'] at hop hso' hsd'
  rw [hindex] at hso hsd
  rw [Token.isUnaryAt, hso] at hu
  rw [hop] at hso'
  cases hso'
  refine ⟨by rw [Token.isUnaryAt, hop]; exact hu', ?_⟩
  rw [hsd, hsd']
  have hprec := Site.precedes_of_lt hsite' hsite hstep
  rcases hprec with ⟨hlt, _⟩ | ⟨_, hbinds⟩
  · omega
  · have hnot : ¬site.bindsBefore site' = true := by rw [hbinds]; exact Bool.false_ne_true
    rw [Site.bindsBefore_iff, horder hu, horder hu'] at hnot
    omega

/-- A range of indices that ends before another one, begins behind it or includes it. -/
theorem disjoint_or_subset_of_range' {a b lo hi : Nat} (h : b ≤ lo ∨ hi ≤ a ∨ a ≤ lo ∧ hi ≤ b) :
    (List.range' a (b - a)).Disjoint (List.range' lo (hi - lo)) ∨
      List.range' lo (hi - lo) ⊆ List.range' a (b - a) := by
  simp only [List.Disjoint, List.subset_def, List.mem_range'_1]
  rcases h with h | h | h
  · exact Or.inl fun i _ _ => by omega
  · exact Or.inl fun i _ _ => by omega
  · exact Or.inr fun _ => by omega

include hg hs in
/-- A block in which nothing is left unjoined is delimited. -/
theorem delimits_of_block {lo hi : Nat} (h : Tree.Block (rowStretches 0 trees) lo hi)
    (hhi : hi ≤ ts.length)
    (hjoined : ∀ i, lo ≤ i → i + 1 < hi → Joined (rowStretches 0 trees) i) :
    Delimits (Site.schedule (Token.raiseRuns ts)) steps (List.range' lo (hi - lo)) := by
  have hlt := h.lt
  have hlen : (trees.flatMap Tree.tokens).length = ts.length := by
    rw [hg.tokens_eq, ← List.length_map Token.lexeme, Token.map_lexeme_raiseRuns, List.length_map]
  obtain ⟨hfits, hwhole⟩ := h.respected_row hg.descending (Nat.zero_le lo)
    (by rw [Nat.zero_add, hlen]; exact hhi) hjoined
  refine ⟨?_, ?_, fun k site hk hin => ?_, fun k site s hk hstep hout => ?_⟩
  · rw [Ne, List.range'_eq_nil_iff]
    omega
  · rw [List.length_range']
    refine hwhole.imp (fun hone => by omega) fun ⟨s, hmem, hfirst, hstop⟩ => ?_
    obtain ⟨step, hstep, _⟩ := (filed_of_mem_row hg hs hmem).step
    refine ⟨s.step, (List.getElem?_eq_some_iff.mp hstep).1, ?_⟩
    rw [covered_of_mem_row hg hs hmem, hfirst, hstop]
  · obtain ⟨s, hmem, rfl, hindex⟩ := exists_mem_row_of_site hg hs hk
    rw [List.mem_range'_1] at hin
    intro i hi'
    rw [covered_of_mem_row hg hs hmem, List.mem_range'_1] at hi'
    rw [List.mem_range'_1]
    cases hfits s hmem with
    | inside hfirst hstop => omega
    | before hlo _ => omega
    | behind hhi _ => omega
  · obtain ⟨r, hmem, rfl, hindex⟩ := exists_mem_row_of_site hg hs hk
    obtain ⟨_, hfirst, hstop⟩ := bounds_of_mem_rowStretches hmem
    obtain ⟨s', hstep', hleft, hright⟩ := (filed_of_mem_row hg hs hmem).step
    rw [hstep] at hstep'
    cases hstep'
    rw [← hindex, hleft, hright]
    rw [List.mem_range'_1, ← hindex] at hout
    intro operand hop
    rcases List.mem_pair.mp hop with rfl | rfl
    · refine disjoint_or_subset_of_range' ?_
      cases hfits r hmem with
      | inside _ _ => omega
      | before _ _ => omega
      | behind _ hor => omega
    · refine disjoint_or_subset_of_range' ?_
      cases hfits r hmem with
      | inside _ _ => omega
      | before _ hor => omega
      | behind _ _ => omega

end Row

end Plan

/-! ## Groups of tokens -/

namespace Token

/-- Tokens that begin and end as an operand does: the first of them is no binary operator, and
the last is no operator at all. -/
structure Rounded (group : List Token) : Prop where
  filled : group ≠ []
  opens : operatorAt? group 0 ≠ none → isUnaryAt group 0 = true
  closes : operatorAt? group (group.length - 1) = none

/-- Without seams, what stands right behind an operand is a binary operator. -/
theorem binary_of_seamsAfter {ts : List Token} {afterOperand : Bool}
    (h : seamsAfter afterOperand ts = 0) {i : Nat} (hi : operatorAt? ts i = none)
    (hnext : i + 1 < ts.length) :
    operatorAt? ts (i + 1) ≠ none ∧ isUnaryAt ts (i + 1) = false := by
  induction ts generalizing afterOperand i with
  | nil => exact absurd hnext (Nat.not_lt_zero _)
  | cons t rest ih =>
    rw [seamsAfter] at h
    have hrest := Nat.eq_zero_of_add_eq_zero_left h
    cases i with
    | succ i => exact ih hrest hi (Nat.lt_of_succ_lt_succ hnext)
    | zero =>
      have ht : t.operator? = none := hi
      obtain ⟨u, more, rfl⟩ := List.exists_cons_of_length_pos (Nat.lt_of_succ_lt_succ hnext)
      rw [seamsAfter, ht] at hrest
      have hu := Nat.eq_zero_of_add_eq_zero_right hrest
      show u.operator? ≠ none ∧ u.isUnary = false
      simpa using hu

section Group

variable (front back : List Token) {group : List Token} {i : Nat}

theorem operatorAt?_group (h : i < group.length) :
    operatorAt? (front ++ (group ++ back)) (front.length + i) = operatorAt? group i := by
  rw [operatorAt?_append_right, operatorAt?_append_left h]

theorem isUnaryAt_group (h : i < group.length) :
    isUnaryAt (front ++ (group ++ back)) (front.length + i) = isUnaryAt group i := by
  rw [isUnaryAt, operatorAt?_group front back h, isUnaryAt]

theorem depthAt_group (h : i < group.length) :
    depthAt (front ++ (group ++ back)) (front.length + i) = depthAt group i := by
  rw [depthAt_append_right, depthAt_append_left h]

theorem operatorAt?_behind (front group back : List Token) :
    operatorAt? (front ++ (group ++ back)) (front.length + group.length) = operatorAt? back 0 := by
  rw [operatorAt?_append_right]
  exact operatorAt?_append_right group back 0

theorem depthAt_behind (front group back : List Token) :
    depthAt (front ++ (group ++ back)) (front.length + group.length) = depthAt back 0 := by
  rw [depthAt_append_right]
  exact depthAt_append_right group back 0

end Group

end Token

namespace Plan

open DialogueScript.Tree

section Group

variable {front group back : List Token} {steps : List Step} {trees : List (Tree Nat)}
  (hg : Grown steps (Token.raiseRuns (front ++ (group ++ back))) trees)
  (hs : Forest.Sited (Site.schedule (Token.raiseRuns (front ++ (group ++ back)))) 0
    (trees.map .grown))

include hg hs in
/-- A delimited group begins and ends as an operand does. -/
theorem Delimits.rounded
    (h : Delimits (Site.schedule (Token.raiseRuns (front ++ (group ++ back)))) steps
      (List.range' front.length group.length)) : Token.Rounded group := by
  have hpos : 0 < group.length := by
    have := h.filled
    rw [Ne, List.range'_eq_nil_iff] at this
    omega
  have hinner : ∀ i, i < group.length → Token.operatorAt? group i ≠ none →
      ∃ s ∈ rowStretches 0 trees, s.index = front.length + i ∧ front.length ≤ s.first ∧
        s.stop ≤ front.length + group.length := by
    intro i hi hop
    rw [← Token.operatorAt?_group front back hi] at hop
    obtain ⟨s, hmem, hindex⟩ := exists_mem_row hg hop
    obtain ⟨_, hfirst, hstop⟩ := bounds_of_mem_rowStretches hmem
    obtain ⟨site, hsite, hsi⟩ := (filed_of_mem_row hg hs hmem).site
    have hsub := h.inner s.step site hsite (by rw [hsi, List.mem_range'_1]; omega)
    rw [covered_of_mem_row hg hs hmem] at hsub
    have hleft := hsub (a := s.first) (by rw [List.mem_range'_1]; omega)
    have hright := hsub (a := s.stop - 1) (by rw [List.mem_range'_1]; omega)
    rw [List.mem_range'_1] at hleft hright
    exact ⟨s, hmem, hindex, by omega, by omega⟩
  refine ⟨List.length_pos_iff.mp hpos, fun hop => ?_, Decidable.byContradiction fun hop => ?_⟩
  · obtain ⟨s, hmem, hindex, hfrom, _⟩ := hinner 0 hpos hop
    obtain ⟨o, ho, hiff⟩ := operator_of_mem_row hg hmem
    have hbounds := bounds_of_mem_rowStretches hmem
    rw [← Token.isUnaryAt_group front back hpos, Token.isUnaryAt, ← hindex, ho]
    exact hiff.mpr (by omega)
  · obtain ⟨s, hmem, hindex, _, hto⟩ := hinner _ (Nat.sub_lt hpos Nat.one_pos) hop
    have hbounds := bounds_of_mem_rowStretches hmem
    omega

include hg hs in
/-- The tokens of a rounded group, deeper than the operators next to it, are a block. -/
theorem block_of_rounded {depth : Nat} (hr : Token.Rounded group)
    (hdeep : ∀ i, i < group.length → depth < Token.depthAt group i)
    (hbefore : ∀ i, i + 1 = front.length → Token.operatorAt? front i ≠ none →
      Token.depthAt front i ≤ depth)
    (hbehind : Token.operatorAt? back 0 ≠ none → Token.isUnaryAt back 0 = false →
      Token.depthAt back 0 ≤ depth) :
    Tree.Block (rowStretches 0 trees) front.length (front.length + group.length) := by
  have hpos : 0 < group.length := List.length_pos_iff.mpr hr.filled
  have hdeep' : ∀ i, front.length ≤ i → i < front.length + group.length →
      depth < Token.depthAt (front ++ (group ++ back)) i := by
    intro i hfrom hto
    obtain ⟨j, rfl⟩ := Nat.exists_eq_add_of_le hfrom
    have hj : j < group.length := Nat.lt_of_add_lt_add_left hto
    rw [Token.depthAt_group front back hj]
    exact hdeep j hj
  have hclosed : ∀ i, i + 1 = front.length + group.length →
      Token.operatorAt? (front ++ (group ++ back)) i = none := by
    intro i hi
    have hi : i = front.length + (group.length - 1) := by omega
    rw [hi, Token.operatorAt?_group front back (Nat.sub_lt hpos Nat.one_pos), hr.closes]
  refine ⟨Nat.lt_add_of_pos_right hpos, fun s hmem hindex => ?_, fun s hmem hindex => ?_,
    fun s hmem s' hmem' hfrom hto hindex => ?_, fun s hmem s' hmem' hfrom hto hindex hfirst => ?_⟩
  · obtain ⟨o, ho, hiff⟩ := operator_of_mem_row hg hmem
    have hopens := hr.opens
    rw [Token.isUnaryAt, ← Token.operatorAt?_group front back hpos, Nat.add_zero, ← hindex,
      ho] at hopens
    rw [← hindex]
    exact hiff.mp (hopens (Option.some_ne_none o))
  · obtain ⟨o, ho, _⟩ := operator_of_mem_row hg hmem
    rw [hclosed s.index hindex] at ho
    cases ho
  · obtain ⟨o, ho, _⟩ := operator_of_mem_row hg hmem'
    have hlt : s'.index < front.length := by omega
    have hle := hbefore s'.index hindex
    rw [← @Token.operatorAt?_append_left front (group ++ back) _ hlt,
      ← @Token.depthAt_append_left front (group ++ back) _ hlt, ho] at hle
    have hle := hle (Option.some_ne_none o)
    refine step_lt_of_depthAt_lt hg hs hmem hmem' ?_
    refine Token.depthAt_raiseRuns_lt _ _ (by omega) (by rw [ho]; exact Option.some_ne_none o)
      (fun m hpm hmq => ?_) (chained_raiseRuns hg hs)
    exact Nat.lt_of_le_of_lt hle (hdeep' m (by omega) (by omega))
  · obtain ⟨o, ho, hiff⟩ := operator_of_mem_row hg hmem'
    have hbinary : o.isUnary = false :=
      Bool.eq_false_iff.mpr fun hu => by have := hiff.mp hu; omega
    have hat := Token.operatorAt?_behind front group back
    have hle : Token.depthAt (front ++ (group ++ back)) s'.index ≤ depth := by
      rw [← hindex, ho] at hat
      rw [hindex, Token.depthAt_behind]
      refine hbehind (by rw [← hat]; exact Option.some_ne_none o) ?_
      rw [Token.isUnaryAt, ← hat]
      exact hbinary
    refine step_lt_of_depthAt_lt hg hs hmem hmem' ?_
    refine Token.depthAt_raiseRuns_lt_of_binary _ _ (by omega) ?_ (fun m hm => ?_)
      (fun m hqm hmr => ?_)
    · rw [Token.isUnaryAt, ho]
      exact hbinary
    · rw [Token.isUnaryAt, hclosed m (by omega)]
      rfl
    · exact Nat.lt_of_le_of_lt hle (hdeep' m (by omega) (by omega))

include hg hs in
/-- A rounded group without seams, deeper than the operators next to it, is delimited. -/
theorem delimits_of_rounded {depth : Nat} (hr : Token.Rounded group)
    (hseams : Token.seams group = 0)
    (hdeep : ∀ i, i < group.length → depth < Token.depthAt group i)
    (hbefore : ∀ i, i + 1 = front.length → Token.operatorAt? front i ≠ none →
      Token.depthAt front i ≤ depth)
    (hbehind : Token.operatorAt? back 0 ≠ none → Token.isUnaryAt back 0 = false →
      Token.depthAt back 0 ≤ depth) :
    Delimits (Site.schedule (Token.raiseRuns (front ++ (group ++ back)))) steps
      (List.range' front.length group.length) := by
  have hdelimits := delimits_of_block hg hs (block_of_rounded hg hs hr hdeep hbefore hbehind)
    (by simp) fun i hfrom hto => ?_
  · rwa [Nat.add_sub_cancel_left] at hdelimits
  · obtain ⟨j, rfl⟩ := Nat.exists_eq_add_of_le hfrom
    have hj : j + 1 < group.length := by omega
    have hat := Token.operatorAt?_group front back (Nat.lt_of_succ_lt hj)
    by_cases hop : Token.operatorAt? group j = none
    · right
      obtain ⟨hnext, hbinary⟩ := Token.binary_of_seamsAfter hseams hop hj
      rw [← Token.operatorAt?_group front back hj] at hnext
      obtain ⟨s, hmem, hindex⟩ := exists_mem_row hg hnext
      obtain ⟨o, ho, hiff⟩ := operator_of_mem_row hg hmem
      obtain ⟨_, hfirst, _⟩ := bounds_of_mem_rowStretches hmem
      refine ⟨s, hmem, hindex, Nat.lt_of_le_of_ne hfirst fun he => ?_⟩
      rw [← Token.isUnaryAt_group front back hj, Token.isUnaryAt, ← hindex, ho] at hbinary
      exact absurd (hiff.mpr he) (Bool.eq_false_iff.mp hbinary)
    · exact Or.inl (exists_mem_row hg (hat ▸ hop))

end Group

end Plan

/-! ## The tokens of a pair of parentheses -/

open Text

namespace Token

/-- At its first character a lexeme has no parenthesis. -/
theorem Lexes.bare_eq_cons {span rest : List Char} {lexeme : Lexeme} (h : Lexes span rest lexeme) :
    ∃ c more, bare false (span ++ rest) = c :: more ∧ c ≠ '(' ∧ c ≠ ')' := by
  rcases h.string_or_plain with ⟨inside, rfl, _⟩ | ⟨hq, hplain⟩
  · exact ⟨' ', _, rfl, by decide, by decide⟩
  · obtain ⟨c, more, rfl, _⟩ := h.recognize
    have hc : c ≠ '\'' := (List.ne_of_not_mem_cons hq).symm
    refine ⟨c, bare false (more ++ rest), ?_, hplain c List.mem_cons_self⟩
    rw [List.cons_append, bare, if_neg hc]
    rfl

/-- A token stands at a place without a parenthesis, and its depth counts those before it. -/
theorem Scanned.place {text : List Char} {tokens : List Token} (h : Scanned 0 0 none text tokens)
    {t : Token} (ht : t ∈ tokens) : ∃ front c back, bare false text = front ++ c :: back ∧
      front.length = t.offset ∧ t.depth = front.foldl nest 0 ∧ c ≠ '(' ∧ c ≠ ')' := by
  obtain ⟨last, span, more, hp, hlexes⟩ := (h.passes .start).1 t ht
  obtain ⟨front, htext, hlen, hdepth⟩ := hp.depth_eq
  obtain ⟨c, back, hc, hne⟩ := hlexes.bare_eq_cons
  exact ⟨front, c, back, by rw [htext, hc], hlen, hdepth, hne⟩

def between (left right : Nat) (ts : List Token) : List Token :=
  ts.filter fun t => left < t.offset ∧ t.offset < right

/-- Tokens that begin one after the other, and none of them at an offset, fall into those before
it and those behind it. -/
theorem eq_filter_append_filter {ts : List Token} (h : (ts.map Token.offset).Pairwise (· < ·))
    {bound : Nat} (hne : ∀ t ∈ ts, t.offset ≠ bound) :
    ts = ts.filter (·.offset < bound) ++ ts.filter (bound < ·.offset) := by
  induction ts with
  | nil => rfl
  | cons t ts ih =>
    obtain ⟨hlt, hrest⟩ := List.pairwise_cons.mp h
    obtain ⟨hne, hnes⟩ := List.forall_mem_cons.mp hne
    rcases Nat.lt_or_gt_of_ne hne with ht | ht
    · rw [List.filter_cons_of_pos (by simpa using ht),
        List.filter_cons_of_neg (by simpa using Nat.le_of_lt ht), List.cons_append, ← ih hrest hnes]
    · have hall : ∀ u ∈ t :: ts, bound < u.offset := by
        refine List.forall_mem_cons.mpr ⟨ht, fun u hu => ?_⟩
        exact Nat.lt_trans ht (hlt _ (List.mem_map_of_mem hu))
      rw [List.filter_eq_nil_iff.mpr fun u hu => by simpa using Nat.le_of_lt (hall u hu),
        List.filter_eq_self.mpr fun u hu => by simpa using hall u hu, List.nil_append]

/-- Between a left parenthesis and its partner the depth is greater than before them. -/
theorem lt_foldl_nest {before inside more : List Char} (hm : Matched 0 inside)
    (h : more <+: inside) : before.foldl nest 0 < (before ++ '(' :: more).foldl nest 0 := by
  have hcount : ∀ front, front <+: more → front.count ')' ≤ front.count '(' := by
    intro front hfront
    have := hm.1 front (hfront.trans h)
    rwa [Nat.zero_add] at this
  have hopen : nest (before.foldl nest 0) '(' = before.foldl nest 0 + 1 := rfl
  have hfold := @foldl_nest_add_count (before.foldl nest 0 + 1) more fun front hfront =>
    Nat.le_trans (hcount front hfront) (Nat.le_add_left _ _)
  have hall := hcount more (List.prefix_refl more)
  rw [List.foldl_append, List.foldl_cons, hopen]
  omega

/-- The tokens of an expression fall into those before a pair of parentheses, those in it and
those behind it, and those in it are deeper than the pair. -/
theorem split_at_pair {text before inside after : List Char} {tokens : List Token}
    (h : scan text = .ok tokens)
    (htext : bare false text = before ++ '(' :: (inside ++ ')' :: after)) (hm : Matched 0 inside) :
    settleSigns false tokens = (settleSigns false tokens).filter (·.offset < before.length) ++
      (between before.length (before.length + 1 + inside.length) (settleSigns false tokens) ++
        (settleSigns false tokens).filter (before.length + 1 + inside.length < ·.offset)) ∧
    ∀ t ∈ between before.length (before.length + 1 + inside.length) (settleSigns false tokens),
      before.foldl nest 0 < t.depth := by
  have hplace : ∀ t ∈ settleSigns false tokens, ∃ front c back,
      bare false text = front ++ c :: back ∧ front.length = t.offset ∧
        t.depth = front.foldl nest 0 ∧ c ≠ '(' ∧ c ≠ ')' := by
    intro t ht
    have hmem := List.mem_map_of_mem (f := fun t : Token => (t.depth, t.offset)) ht
    rw [map_settleSigns fun _ _ => rfl] at hmem
    obtain ⟨u, hu, he⟩ := List.mem_map.mp hmem
    obtain ⟨hdepth, hoffset⟩ := Prod.mk.inj he
    rw [← hdepth, ← hoffset]
    exact (scan_eq_ok_iff.mp h).2.place hu
  have hchar : ∀ t ∈ settleSigns false tokens, ∀ p, (bare false text)[t.offset]? = some p →
      p ≠ '(' ∧ p ≠ ')' := by
    intro t ht p hp
    obtain ⟨front, c, back, hbare, hlen, _, hc⟩ := hplace t ht
    rw [hbare, ← hlen, List.getElem?_append_right (Nat.le_refl _), Nat.sub_self] at hp
    cases hp
    exact hc
  have hleft : (bare false text)[before.length]? = some '(' := by
    rw [htext, List.getElem?_append_right (Nat.le_refl _), Nat.sub_self]
    rfl
  have hright : (bare false text)[before.length + 1 + inside.length]? = some ')' := by
    have hsplit : bare false text = (before ++ '(' :: inside) ++ ')' :: after := by
      rw [htext, List.append_assoc, List.cons_append]
    have hlen : (before ++ '(' :: inside).length = before.length + 1 + inside.length := by
      rw [List.length_append, List.length_cons]
      omega
    rw [hsplit, ← hlen, List.getElem?_append_right (Nat.le_refl _), Nat.sub_self]
    rfl
  have hascending := pairwise_offset_settleSigns h
  refine ⟨?_, fun t ht => ?_⟩
  · have hfirst := eq_filter_append_filter hascending fun t ht he =>
      (hchar t ht '(' (he ▸ hleft)).1 rfl
    have hlater := @eq_filter_append_filter
      ((settleSigns false tokens).filter (before.length < ·.offset))
      (hascending.sublist (List.filter_sublist.map _)) (before.length + 1 + inside.length)
      fun t ht he => (hchar t (List.mem_of_mem_filter ht) ')' (he ▸ hright)).2 rfl
    have hgroup : ((settleSigns false tokens).filter (before.length < ·.offset)).filter
        (·.offset < before.length + 1 + inside.length) =
        between before.length (before.length + 1 + inside.length) (settleSigns false tokens) := by
      rw [List.filter_filter, between]
      exact List.filter_congr fun t _ => by rw [Bool.decide_and, Bool.and_comm]
    have hback : ((settleSigns false tokens).filter (before.length < ·.offset)).filter
        (before.length + 1 + inside.length < ·.offset) =
        (settleSigns false tokens).filter (before.length + 1 + inside.length < ·.offset) := by
      rw [List.filter_filter]
      refine List.filter_congr fun t _ => ?_
      rw [← Bool.decide_and]
      exact decide_eq_decide.mpr ⟨And.left, fun hlt => ⟨hlt, by omega⟩⟩
    rw [hgroup, hback] at hlater
    rw [← hlater]
    exact hfirst
  · obtain ⟨hmem, hoffset⟩ := List.mem_filter.mp ht
    obtain ⟨hgt, hlt⟩ := of_decide_eq_true hoffset
    obtain ⟨start, c, tail, hbare, hlen, hdepth, _⟩ := hplace t hmem
    have hopen : before ++ ['('] <+: start := by
      refine List.prefix_of_prefix_length_le ⟨inside ++ ')' :: after, ?_⟩ ⟨c :: tail, hbare.symm⟩ ?_
      · rw [htext, List.append_assoc, List.singleton_append]
      · rw [List.length_append, List.length_singleton, hlen]
        exact hgt
    obtain ⟨more, rfl⟩ := hopen
    rw [htext, List.append_assoc, List.append_assoc, List.singleton_append] at hbare
    have hinside := (List.cons.inj (List.append_cancel_left hbare)).2
    have hmore : more <+: inside := by
      refine List.prefix_of_prefix_length_le ⟨c :: tail, hinside.symm⟩
        (List.prefix_append inside (')' :: after)) ?_
      rw [List.length_append, List.length_append, List.length_singleton] at hlen
      omega
    rw [hdepth, List.append_assoc, List.singleton_append]
    exact lt_foldl_nest hm hmore

/-- The operators next to a group are no deeper than the pair of parentheses around it. A unary
operator behind the group does not count, since it takes nothing from there. -/
structure Clear (depth : Nat) (front back : List Token) : Prop where
  before : ∀ i, i + 1 = front.length → operatorAt? front i ≠ none → depthAt front i ≤ depth
  behind : operatorAt? back 0 ≠ none → isUnaryAt back 0 = false → depthAt back 0 ≤ depth

end Token

namespace Plan

theorem operator?_of_ofToken {t : Token} {plan : Plan} (h : ofToken t = .ok plan) :
    t.operator? = none := by
  obtain ⟨o | v | name, depth, offset⟩ := t
  · cases h
  · rfl
  · rfl

/-- Groups in a list of tokens that has a plan. -/
theorem delimits_of_ofTokens {front group back : List Token} {plan : Plan} {depth : Nat}
    (h : ofTokens (front ++ (group ++ back)) = .ok plan) (hdeep : ∀ t ∈ group, depth < t.depth) :
    let sites := Site.schedule (Token.raiseRuns (front ++ (group ++ back)))
    (Delimits sites plan.steps (List.range' front.length group.length) → Token.Rounded group) ∧
    (Token.Rounded group → Token.seams group = 0 → Token.Clear depth front back →
      Delimits sites plan.steps (List.range' front.length group.length)) := by
  intro sites
  rcases Nat.lt_or_ge 1 (front ++ (group ++ back)).length with hlen | hlen
  · rw [ofTokens_eq_ofDraft hlen] at h
    obtain ⟨trees, hg, hs⟩ := exists_grown_of_growth
      (motive := fun placed f => Forest.Sited placed 0 f) (fun hf hg => hg.sited hf)
      (Forest.sited_ofTokens 0 _) h
    refine ⟨fun hd => hd.rounded hg hs, fun hr hseams hclear => ?_⟩
    refine delimits_of_rounded hg hs hr hseams (fun i hi => ?_) hclear.before hclear.behind
    rw [Token.depthAt, List.getElem?_eq_getElem hi]
    exact hdeep _ (List.getElem_mem hi)
  · cases group with
    | nil => exact ⟨fun hd => absurd rfl hd.filled, fun hr => absurd rfl hr.filled⟩
    | cons t rest =>
      simp only [List.length_append, List.length_cons] at hlen
      obtain rfl := List.eq_nil_of_length_eq_zero (l := front) (by omega)
      obtain rfl := List.eq_nil_of_length_eq_zero (l := rest) (by omega)
      obtain rfl := List.eq_nil_of_length_eq_zero (l := back) (by omega)
      have ht : t.operator? = none := operator?_of_ofToken h
      have hsites : ∀ (k : Nat) (site : Site), sites[k]? ≠ some site := by
        intro k site hk
        have hop := (Site.spec_of_mem_ofTokens
          ((Site.schedule_perm _).mem_iff.mp (List.mem_of_getElem? hk))).1
        rw [Token.operatorAt?_raiseRuns] at hop
        cases hi : site.index with
        | zero =>
          rw [hi] at hop
          exact absurd (ht.symm.trans hop) (Option.some_ne_none _).symm
        | succ i =>
          rw [hi] at hop
          cases hop
      refine ⟨fun _ => ⟨List.cons_ne_nil _ _, fun ho => absurd ht ho, ht⟩, fun _ _ _ => ?_⟩
      exact ⟨List.cons_ne_nil _ _, Or.inl rfl, fun k site hk => absurd hk (hsites k site),
        fun k site _ hk => absurd hk (hsites k site)⟩

/-- Parentheses in an accepted expression. The tokens of the expression are those before a pair of
parentheses, those in it and those behind it. If the pair delimits an operand, there is a token
in it, the first one is no binary operator, and the last one is no operator. And if that is so,
the pair delimits an operand, unless two operands stand side by side in it or the operator next to
it dangles from a group of its own. -/
theorem parentheses_delimit {text before inside after : List Char} {tokens : List Token}
    {offset : Nat} {plan : Plan} (hs : Token.scan text = .ok tokens)
    (hp : compile text offset = .ok plan)
    (htext : bare false text = before ++ '(' :: (inside ++ ')' :: after)) (hm : Matched 0 inside) :
    let settled := Token.settleSigns false tokens
    let sites := Site.schedule (Token.raiseRuns settled)
    let front := settled.filter (·.offset < before.length)
    let group := Token.between before.length (before.length + 1 + inside.length) settled
    let back := settled.filter (before.length + 1 + inside.length < ·.offset)
    settled = front ++ (group ++ back) ∧
    (Delimits sites plan.steps (List.range' front.length group.length) → Token.Rounded group) ∧
    (Token.Rounded group → Token.seams group = 0 → Token.Clear (before.foldl nest 0) front back →
      Delimits sites plan.steps (List.range' front.length group.length)) := by
  intro settled sites front group back
  obtain ⟨hsplit, hdeep⟩ := Token.split_at_pair hs htext hm
  have hsettled : settled = front ++ (group ++ back) := hsplit
  obtain ⟨ts, hts, hplan⟩ := exists_tokens_of_compile hp
  obtain rfl : tokens = ts := Except.ok.inj (hs.symm.trans hts)
  have hplan : ofTokens settled = .ok plan := hplan
  refine ⟨hsettled, ?_⟩
  have hgroups := @delimits_of_ofTokens front group back plan (before.foldl nest 0)
    (hsettled ▸ hplan) hdeep
  rw [← hsettled] at hgroups
  exact hgroups

/-- In `!-(a+b)*c` the pair delimits the sum, although the run before it is put into levels. -/
theorem parentheses_delimit_sum :
    let text := ['!', '-', '(', 'a', '+', 'b', ')', '*', 'c']
    let tokens : List Token := [⟨.operator .logicalNot, 0, 0⟩, ⟨.operator .subtract, 0, 1⟩,
      ⟨.variable "a", 1, 3⟩, ⟨.operator .add, 1, 4⟩, ⟨.variable "b", 1, 5⟩,
      ⟨.operator .multiply, 0, 7⟩, ⟨.variable "c", 0, 8⟩]
    let steps : List Step := [⟨some .add, some (.variable "a"), some (.variable "b")⟩,
      ⟨some .negate, none, some (.result 0)⟩, ⟨some .logicalNot, none, some (.result 1)⟩,
      ⟨some .multiply, some (.result 2), some (.variable "c")⟩]
    Token.scan text = .ok tokens ∧ compile text 0 = .ok ⟨steps⟩ ∧
    bare false text = ['!', '-'] ++ '(' :: (['a', '+', 'b'] ++ ')' :: ['*', 'c']) ∧
    Matched 0 ['a', '+', 'b'] ∧
    Delimits (Site.schedule (Token.raiseRuns (Token.settleSigns false tokens))) steps
      [2, 3, 4] := by
  intro text tokens steps
  have hs : Token.scan text = .ok tokens := by cbv
  have hp : compile text 0 = .ok ⟨steps⟩ := by cbv
  have htext : bare false text = ['!', '-'] ++ '(' :: (['a', '+', 'b'] ++ ')' :: ['*', 'c']) := rfl
  have hm : Matched 0 ['a', '+', 'b'] := by decide
  obtain ⟨_, _, hdelimits⟩ := parentheses_delimit hs hp htext hm
  refine ⟨hs, hp, htext, hm, hdelimits ⟨by decide, by decide, by decide⟩ (by decide) ⟨?_, ?_⟩⟩
  · intro i hi
    cases hi
    decide
  · decide

/-- In `(a+)b` the sum inside of the pair takes the `b` outside, and the expression is accepted.
In `(a*)(b+c)` the product dangles from the first pair and takes the `b` of the second one, which
begins and ends as an operand does; the sum there is left with the product. -/
theorem not_delimits_dangling :
    (let text := ['(', 'a', '+', ')', 'b']
    let tokens : List Token :=
      [⟨.variable "a", 1, 1⟩, ⟨.operator .add, 1, 2⟩, ⟨.variable "b", 0, 4⟩]
    let sites := Site.schedule (Token.raiseRuns (Token.settleSigns false tokens))
    let steps : List Step := [⟨some .add, some (.variable "a"), some (.variable "b")⟩]
    Token.scan text = .ok tokens ∧ compile text 0 = .ok ⟨steps⟩ ∧
    bare false text = [] ++ '(' :: (['a', '+'] ++ ')' :: ['b']) ∧ Matched 0 ['a', '+'] ∧
    Token.between 0 3 (Token.settleSigns false tokens) =
      [⟨.variable "a", 1, 1⟩, ⟨.operator .add, 1, 2⟩] ∧
    sites = [⟨1, .add, 1, 2⟩] ∧ covered sites steps 0 = [0, 1, 2] ∧
    ¬Delimits sites steps [0, 1]) ∧
    let text := ['(', 'a', '*', ')', '(', 'b', '+', 'c', ')']
    let tokens : List Token := [⟨.variable "a", 1, 1⟩, ⟨.operator .multiply, 1, 2⟩,
      ⟨.variable "b", 1, 5⟩, ⟨.operator .add, 1, 6⟩, ⟨.variable "c", 1, 7⟩]
    let sites := Site.schedule (Token.raiseRuns (Token.settleSigns false tokens))
    let steps : List Step := [⟨some .multiply, some (.variable "a"), some (.variable "b")⟩,
      ⟨some .add, some (.result 0), some (.variable "c")⟩]
    Token.scan text = .ok tokens ∧ compile text 0 = .ok ⟨steps⟩ ∧
    bare false text = ['(', 'a', '*', ')'] ++ '(' :: (['b', '+', 'c'] ++ ')' :: []) ∧
    Matched 0 ['b', '+', 'c'] ∧
    Token.Rounded (Token.between 4 8 (Token.settleSigns false tokens)) ∧
    sites = [⟨1, .multiply, 1, 2⟩, ⟨3, .add, 1, 6⟩] ∧ covered sites steps 1 = [0, 1, 2, 3, 4] ∧
    ¬Delimits sites steps [2, 3, 4] := by
  constructor
  · intro text tokens sites steps
    have hsites : sites = [⟨1, .add, 1, 2⟩] := by
      show Site.schedule (Token.raiseRuns (Token.settleSigns false tokens)) = _
      cbv
    have hcovered : covered [⟨1, .add, 1, 2⟩] steps 0 = [0, 1, 2] := by cbv
    refine ⟨by cbv, by cbv, rfl, by decide, rfl, hsites, ?_, fun h => ?_⟩
    · rw [hsites, hcovered]
    · rw [hsites] at h
      have hinner := h.inner 0 ⟨1, .add, 1, 2⟩ rfl (by decide)
      rw [hcovered] at hinner
      exact absurd (hinner (a := 2) (by decide)) (by decide)
  · intro text tokens sites steps
    have hsites : sites = [⟨1, .multiply, 1, 2⟩, ⟨3, .add, 1, 6⟩] := by
      show Site.schedule (Token.raiseRuns (Token.settleSigns false tokens)) = _
      cbv
    have hcovered : covered [⟨1, .multiply, 1, 2⟩, ⟨3, .add, 1, 6⟩] steps 1 = [0, 1, 2, 3, 4] := by
      cbv
    refine ⟨by cbv, by cbv, rfl, by decide, ⟨by decide, by decide, by decide⟩, hsites, ?_,
      fun h => ?_⟩
    · rw [hsites, hcovered]
    · rw [hsites] at h
      have hinner := h.inner 1 ⟨3, .add, 1, 6⟩ rfl (by decide)
      rw [hcovered] at hinner
      exact absurd (hinner (a := 0) (by decide)) (by decide)

end Plan

end DialogueScript
