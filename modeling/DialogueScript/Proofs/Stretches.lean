import DialogueScript.Proofs.TokenOrder
import DialogueScript.Proofs.Raising

/-!
# The stretches of tokens that operators take

An operator in a tree takes the tokens of its operands, and these stand side by side with it: a
stretch of tokens. Two stretches of a tree are nested or apart. Here it is asked when a block of
tokens fits in between, so that an operator of the block takes tokens of the block only, and
an operator outside takes the block as a whole or leaves it alone.

Where every operator is labelled by the number of its step, operators further up in a tree have
greater numbers. So a block that contains the root of a tree, and whose operators all come
before the operators next to it, is the whole tree.

Main statements:
1. `Tree.map_operator_stretches`: every operator among the tokens has its stretch.
2. `Tree.Block.respected`: a block that begins and ends as an operand does and whose operators
   come before those next to it is the stretch of one operator or a single token, and all
   stretches of the tree fit it.
3. `Tree.Block.respected_row`: the same for trees that stand side by side.
-/

namespace DialogueScript

namespace Site

theorem ofTokens_append (index : Nat) (ts us : List Token) :
    ofTokens index (ts ++ us) = ofTokens index ts ++ ofTokens (index + ts.length) us := by
  induction ts generalizing index with
  | nil => rfl
  | cons t ts ih =>
    rw [List.cons_append, ofTokens, ofTokens, ih, List.length_cons, Nat.add_assoc, Nat.add_comm 1]
    cases t.operator? <;> rfl

end Site

namespace Tree

/-! ## Stretches -/

/-- An operator of a tree and the tokens it takes. Its left operand stands from `first` up to
it, its right operand behind it up to `stop`. -/
structure Stretch where
  step : Nat
  operator : Option Operator
  first : Nat
  index : Nat
  stop : Nat

/-- The stretches of a tree whose first token has an index, in the order of the operators. -/
def stretches (start : Nat) : Tree Nat → List Stretch
  | leaf _ => []
  | unary k t right =>
    ⟨k, t.operator?, start, start, start + 1 + right.tokens.length⟩ :: right.stretches (start + 1)
  | binary k left t right =>
    left.stretches start ++
      ⟨k, t.operator?, start, start + left.tokens.length,
        start + left.tokens.length + 1 + right.tokens.length⟩ ::
      right.stretches (start + left.tokens.length + 1)

def rowStretches (start : Nat) : List (Tree Nat) → List Stretch
  | [] => []
  | tree :: rest => tree.stretches start ++ rowStretches (start + tree.tokens.length) rest

theorem mem_stretches_binary {k start : Nat} {left right : Tree Nat} {t : Token} {s : Stretch} :
    s ∈ (binary k left t right).stretches start ↔
      s = ⟨k, t.operator?, start, start + left.tokens.length,
        start + left.tokens.length + 1 + right.tokens.length⟩ ∨
      s ∈ left.stretches start ∨ s ∈ right.stretches (start + left.tokens.length + 1) := by
  rw [stretches, List.mem_append, List.mem_cons, or_left_comm]

/-- A stretch lies in the tree, and its operator has something behind it. -/
theorem bounds_of_mem_stretches {tree : Tree Nat} {start : Nat} {s : Stretch}
    (h : s ∈ tree.stretches start) :
    start ≤ s.first ∧ s.first ≤ s.index ∧ s.index + 1 < s.stop ∧
      s.stop ≤ start + tree.tokens.length := by
  induction tree generalizing start with
  | leaf t => exact absurd h List.not_mem_nil
  | unary k t right ih =>
    have hpos := List.length_pos_iff.mpr right.tokens_ne_nil
    rw [tokens, List.length_cons]
    rcases List.mem_cons.mp h with rfl | h
    · exact ⟨Nat.le_refl _, Nat.le_refl _, by simp only; omega, by simp only; omega⟩
    · have := ih h
      omega
  | binary k left t right ihl ihr =>
    have hpos := List.length_pos_iff.mpr right.tokens_ne_nil
    rw [tokens, List.length_append, List.length_cons]
    rcases mem_stretches_binary.mp h with rfl | h | h
    · exact ⟨Nat.le_refl _, Nat.le_add_right _ _, by simp only; omega, by simp only; omega⟩
    · have := ihl h
      omega
    · have := ihr h
      omega

theorem bounds_of_mem_rowStretches {trees : List (Tree Nat)} {start : Nat} {s : Stretch}
    (h : s ∈ rowStretches start trees) :
    start ≤ s.first ∧ s.first ≤ s.index ∧ s.index + 1 < s.stop := by
  induction trees generalizing start with
  | nil => exact absurd h List.not_mem_nil
  | cons tree rest ih =>
    rcases List.mem_append.mp h with h | h
    · have := bounds_of_mem_stretches h
      omega
    · have := ih h
      omega

/-- Of a token and the next one, the first is an operator or the second a binary operator. -/
def Joined (stretches : List Stretch) (i : Nat) : Prop :=
  (∃ s ∈ stretches, s.index = i) ∨ ∃ s ∈ stretches, s.index = i + 1 ∧ s.first < s.index

theorem Joined.mono {part whole : List Stretch} {i : Nat} (h : Joined part i)
    (hsub : part ⊆ whole) : Joined whole i :=
  h.imp (Exists.imp fun _ hs => ⟨hsub hs.1, hs.2⟩) (Exists.imp fun _ hs => ⟨hsub hs.1, hs.2⟩)

/-- Neighbours in a tree are joined. -/
theorem joined_stretches {tree : Tree Nat} {start i : Nat} (hi : start ≤ i)
    (hstop : i + 1 < start + tree.tokens.length) : Joined (tree.stretches start) i := by
  induction tree generalizing start with
  | leaf t =>
    rw [tokens, List.length_singleton] at hstop
    omega
  | unary k t right ih =>
    rw [tokens, List.length_cons] at hstop
    rcases Nat.eq_or_lt_of_le hi with rfl | hlt
    · exact Or.inl ⟨_, List.mem_cons_self, rfl⟩
    · exact (ih hlt (by omega)).mono (List.subset_cons_self _ _)
  | binary k left t right ihl ihr =>
    have hpos := List.length_pos_iff.mpr left.tokens_ne_nil
    rw [tokens, List.length_append, List.length_cons] at hstop
    rcases Nat.lt_trichotomy (i + 1) (start + left.tokens.length) with hlt | heq | hgt
    · exact (ihl hi hlt).mono fun s hs => mem_stretches_binary.mpr (Or.inr (Or.inl hs))
    · refine Or.inr ⟨_, mem_stretches_binary.mpr (Or.inl rfl), heq.symm, ?_⟩
      exact Nat.lt_add_of_pos_right hpos
    · rcases Nat.eq_or_lt_of_le (Nat.le_of_lt_succ hgt) with heq | hlt
      · exact Or.inl ⟨_, mem_stretches_binary.mpr (Or.inl rfl), heq⟩
      · exact (ihr hlt (by omega)).mono fun s hs => mem_stretches_binary.mpr (Or.inr (Or.inr hs))

/-- A stretch begins at its operator exactly if that is unary. -/
theorem operator_of_mem_stretches {tree : Tree Nat} (hv : tree.Valid) {start : Nat} {s : Stretch}
    (h : s ∈ tree.stretches start) :
    ∃ o, s.operator = some o ∧ (o.isUnary = true ↔ s.first = s.index) := by
  induction tree generalizing start with
  | leaf t => exact absurd h List.not_mem_nil
  | unary k t right ih =>
    obtain ⟨⟨o, ho, hu⟩, hr⟩ := hv
    rcases List.mem_cons.mp h with rfl | h
    · exact ⟨o, ho, fun _ => rfl, fun _ => hu⟩
    · exact ih hr h
  | binary k left t right ihl ihr =>
    obtain ⟨⟨o, ho, hu⟩, hl, hr⟩ := hv
    rcases mem_stretches_binary.mp h with rfl | h | h
    · refine ⟨o, ho, fun hu' => absurd hu' (Bool.eq_false_iff.mp hu), fun he => ?_⟩
      have hpos := List.length_pos_iff.mpr left.tokens_ne_nil
      exact absurd he (Nat.ne_of_lt (Nat.lt_add_of_pos_right hpos))
    · exact ihl hl h
    · exact ihr hr h

/-- The operators of a tree are those of its tokens. -/
theorem map_operator_stretches {tree : Tree Nat} (hv : tree.Valid) (start : Nat) :
    ((tree.stretches start).map fun s => (s.index, s.operator)) =
      (Site.ofTokens start tree.tokens).map fun site => (site.index, some site.operator) := by
  induction tree generalizing start with
  | leaf t =>
    have ht : t.operator? = none := hv
    rw [tokens, Site.ofTokens, ht]
    rfl
  | unary k t right ih =>
    obtain ⟨⟨o, ho, _⟩, hr⟩ := hv
    rw [tokens, Site.ofTokens, ho, stretches, List.map_cons, ih hr, ho]
    rfl
  | binary k left t right ihl ihr =>
    obtain ⟨⟨o, ho, _⟩, hl, hr⟩ := hv
    rw [tokens, Site.ofTokens_append, Site.ofTokens, ho, stretches, List.map_append,
      List.map_append, List.map_cons, ihl hl, ihr hr, ho]
    rfl

/-- A stretch of trees side by side belongs to one of them, at its place. -/
theorem exists_of_mem_rowStretches {trees : List (Tree Nat)} {start : Nat} {s : Stretch}
    (h : s ∈ rowStretches start trees) : ∃ before tree after, trees = before ++ tree :: after ∧
      s ∈ tree.stretches (start + (before.flatMap tokens).length) := by
  induction trees generalizing start with
  | nil => exact absurd h List.not_mem_nil
  | cons tree rest ih =>
    rcases List.mem_append.mp h with h | h
    · exact ⟨[], tree, rest, rfl, h⟩
    · obtain ⟨before, part, after, rfl, hs⟩ := ih h
      refine ⟨tree :: before, part, after, rfl, ?_⟩
      rwa [List.flatMap_cons, List.length_append, ← Nat.add_assoc]

theorem map_operator_rowStretches {trees : List (Tree Nat)} (hv : ∀ tree ∈ trees, tree.Valid)
    (start : Nat) : ((rowStretches start trees).map fun s => (s.index, s.operator)) =
      (Site.ofTokens start (trees.flatMap tokens)).map fun site =>
        (site.index, some site.operator) := by
  induction trees generalizing start with
  | nil => rfl
  | cons tree rest ih =>
    rw [rowStretches, List.map_append, map_operator_stretches (hv tree List.mem_cons_self),
      ih fun t ht => hv t (List.mem_cons_of_mem _ ht), List.flatMap_cons, Site.ofTokens_append,
      List.map_append]

/-! ## The order of the steps -/

def Descending : Tree Nat → Prop
  | leaf _ => True
  | unary k _ right => (∀ j ∈ right.labels, j < k) ∧ right.Descending
  | binary k left _ right =>
    (∀ j ∈ left.labels ++ right.labels, j < k) ∧ left.Descending ∧ right.Descending

/-- In a plan that refers backward the operator at the root of a tree comes last. -/
theorem Recorded.descending {steps : List Step} {tree : Tree Nat} (hr : tree.Recorded steps)
    (hb : Plan.Backward 0 steps) :
    tree.Descending ∧ ∀ k, tree.slot = some (.result k) → ∀ j ∈ tree.labels, j ≤ k := by
  -- A step comes after the root of its operand, and with it after all the operand has.
  have below : ∀ {part : Tree Nat} {i : Nat} {s : Step}, steps[i]? = some s →
      part.slot = s.left ∨ part.slot = s.right →
      (∀ k, part.slot = some (.result k) → ∀ j ∈ part.labels, j ≤ k) →
      ∀ j ∈ part.labels, j < i := by
    intro part i s hs hslot hroot j hj
    have hk : ∃ k, part.slot = some (.result k) := by
      cases part with
      | leaf t => exact absurd hj List.not_mem_nil
      | unary k t right => exact ⟨k, rfl⟩
      | binary k left t right => exact ⟨k, rfl⟩
    obtain ⟨k, hk⟩ := hk
    refine Nat.lt_of_le_of_lt (hroot k hk j hj) ?_
    have hlt := hb.reference_lt hs (Step.mem_references.mpr (hk ▸ hslot.imp Eq.symm Eq.symm))
    rwa [Nat.zero_add] at hlt
  induction tree with
  | leaf t => exact ⟨trivial, fun k _ j hj => absurd hj List.not_mem_nil⟩
  | unary i t right ih =>
    obtain ⟨hdesc, hroot⟩ := ih hr.2
    have hlt := below hr.1 (Or.inr rfl) hroot
    refine ⟨⟨hlt, hdesc⟩, fun k hk j hj => ?_⟩
    cases hk
    rcases List.mem_cons.mp hj with rfl | hj
    · exact Nat.le_refl j
    · exact Nat.le_of_lt (hlt j hj)
  | binary i left t right ihl ihr =>
    obtain ⟨hdescl, hrootl⟩ := ihl hr.2.1
    obtain ⟨hdescr, hrootr⟩ := ihr hr.2.2
    have hlt : ∀ j ∈ left.labels ++ right.labels, j < i := by
      intro j hj
      rcases List.mem_append.mp hj with hj | hj
      · exact below hr.1 (Or.inl rfl) hrootl j hj
      · exact below hr.1 (Or.inr rfl) hrootr j hj
    refine ⟨⟨hlt, hdescl, hdescr⟩, fun k hk j hj => ?_⟩
    cases hk
    rcases List.mem_cons.mp hj with rfl | hj
    · exact Nat.le_refl j
    · exact Nat.le_of_lt (hlt j hj)

theorem step_mem_labels {tree : Tree Nat} {start : Nat} {s : Stretch}
    (h : s ∈ tree.stretches start) : s.step ∈ tree.labels := by
  induction tree generalizing start with
  | leaf t => exact absurd h List.not_mem_nil
  | unary k t right ih =>
    rcases List.mem_cons.mp h with rfl | h
    · exact List.mem_cons_self
    · exact List.mem_cons_of_mem _ (ih h)
  | binary k left t right ihl ihr =>
    rcases mem_stretches_binary.mp h with rfl | h | h
    · exact List.mem_cons_self
    · exact List.mem_cons_of_mem _ (List.mem_append_left _ (ihl h))
    · exact List.mem_cons_of_mem _ (List.mem_append_right _ (ihr h))

/-- An operator right behind another one stands in the operand of that. -/
theorem Descending.next {tree : Tree Nat} (hd : tree.Descending) {start : Nat} {s s' : Stretch}
    (hs : s ∈ tree.stretches start) (hs' : s' ∈ tree.stretches start)
    (hi : s'.index = s.index + 1) : s.index < s'.first ∧ s'.step < s.step := by
  induction tree generalizing start with
  | leaf t => exact absurd hs List.not_mem_nil
  | unary k t right ih =>
    rcases List.mem_cons.mp hs with rfl | hs
    · rcases List.mem_cons.mp hs' with rfl | hs'
      · simp only at hi
        omega
      · exact ⟨(bounds_of_mem_stretches hs').1, hd.1 _ (step_mem_labels hs')⟩
    · have hbounds := bounds_of_mem_stretches hs
      rcases List.mem_cons.mp hs' with rfl | hs'
      · simp only at hi
        omega
      · exact ih hd.2 hs hs'
  | binary k left t right ihl ihr =>
    have hlabels : ∀ {r : Stretch}, r ∈ right.stretches (start + left.tokens.length + 1) →
        r.step < k := fun hr => hd.1 _ (List.mem_append_right _ (step_mem_labels hr))
    have hleft : ∀ {r : Stretch}, r ∈ left.stretches start →
        r.index + 1 < start + left.tokens.length := by
      intro r hr
      have := bounds_of_mem_stretches hr
      omega
    have hright : ∀ {r : Stretch}, r ∈ right.stretches (start + left.tokens.length + 1) →
        start + left.tokens.length + 1 ≤ r.first ∧ r.first ≤ r.index := by
      intro r hr
      have := bounds_of_mem_stretches hr
      omega
    rcases mem_stretches_binary.mp hs with rfl | hs | hs <;>
      rcases mem_stretches_binary.mp hs' with rfl | hs' | hs'
    · simp only at hi
      omega
    · have := hleft hs'
      simp only at hi
      omega
    · exact ⟨(hright hs').1, hlabels hs'⟩
    · have := hleft hs
      simp only at hi
      omega
    · exact ihl hd.2.1 hs hs'
    · have := hleft hs
      have := hright hs'
      omega
    · have := hright hs
      simp only at hi
      omega
    · have := hleft hs'
      have := hright hs
      omega
    · exact ihr hd.2.2 hs hs'

theorem next_of_mem_rowStretches {trees : List (Tree Nat)} (hd : ∀ tree ∈ trees, tree.Descending)
    {start : Nat} {s s' : Stretch} (hs : s ∈ rowStretches start trees)
    (hs' : s' ∈ rowStretches start trees) (hi : s'.index = s.index + 1) :
    s.index < s'.first ∧ s'.step < s.step := by
  induction trees generalizing start with
  | nil => exact absurd hs List.not_mem_nil
  | cons tree rest ih =>
    have hrest : ∀ {r : Stretch}, r ∈ rowStretches (start + tree.tokens.length) rest →
        start + tree.tokens.length ≤ r.index := by
      intro r hr
      obtain ⟨hfrom, hto, _⟩ := bounds_of_mem_rowStretches hr
      exact Nat.le_trans hfrom hto
    rcases List.mem_append.mp hs with hs | hs
    · have hbounds := bounds_of_mem_stretches hs
      rcases List.mem_append.mp hs' with hs' | hs'
      · exact (hd tree List.mem_cons_self).next hs hs' hi
      · have := hrest hs'
        omega
    · rcases List.mem_append.mp hs' with hs' | hs'
      · have := bounds_of_mem_stretches hs'
        have := hrest hs
        omega
      · exact ih (fun t ht => hd t (List.mem_cons_of_mem _ ht)) hs hs'

/-! ## Blocks of tokens -/

/-- A stretch fits a block of tokens, those from `lo` up to `hi`: it lies inside of the block, or
its operator stands before or behind the block and takes all of it or nothing of it. -/
inductive Stretch.Fits (lo hi : Nat) (s : Stretch) : Prop
  | inside : lo ≤ s.first → s.stop ≤ hi → s.Fits lo hi
  | before : s.index < lo → s.stop ≤ lo ∨ hi ≤ s.stop → s.Fits lo hi
  | behind : hi ≤ s.index → hi ≤ s.first ∨ s.first ≤ lo → s.Fits lo hi

/-- A block of tokens that could be an operand: no binary operator begins it, no operator ends
it, and its operators come before those next to it. -/
structure Block (stretches : List Stretch) (lo hi : Nat) : Prop where
  lt : lo < hi
  opens : ∀ s ∈ stretches, s.index = lo → s.first = lo
  closes : ∀ s ∈ stretches, s.index + 1 ≠ hi
  left : ∀ s ∈ stretches, ∀ s' ∈ stretches, lo ≤ s.index → s.index < hi → s'.index + 1 = lo →
    s.step < s'.step
  right : ∀ s ∈ stretches, ∀ s' ∈ stretches, lo ≤ s.index → s.index < hi → s'.index = hi →
    s'.first < hi → s.step < s'.step

theorem Block.mono {part whole : List Stretch} {lo hi : Nat} (h : Block whole lo hi)
    (hsub : part ⊆ whole) : Block part lo hi where
  lt := h.lt
  opens := fun s hs => h.opens s (hsub hs)
  closes := fun s hs => h.closes s (hsub hs)
  left := fun s hs s' hs' => h.left s (hsub hs) s' (hsub hs')
  right := fun s hs s' hs' => h.right s (hsub hs) s' (hsub hs')

/-- A block of a tree that has the operator at the root is the whole tree. -/
theorem Block.eq_whole {tree : Tree Nat} {start lo hi : Nat} {root : Stretch}
    (h : Block (tree.stretches start) lo hi) (hlo : start ≤ lo)
    (hhi : hi ≤ start + tree.tokens.length) (hroot : root ∈ tree.stretches start)
    (htop : ∀ s ∈ tree.stretches start, s.step ≤ root.step) (hfrom : lo ≤ root.index)
    (hto : root.index < hi) : lo = start ∧ hi = start + tree.tokens.length := by
  have hlt := h.lt
  constructor
  · refine Decidable.byContradiction fun hne => ?_
    obtain ⟨i, rfl⟩ := Nat.exists_eq_add_one_of_ne_zero (n := lo) (by omega)
    rcases @joined_stretches tree start i (by omega) (by omega) with
      ⟨s, hs, hi⟩ | ⟨s, hs, hi, hfirst⟩
    · exact absurd (h.left root hroot s hs hfrom hto (by rw [hi])) (Nat.not_lt_of_le (htop s hs))
    · have := h.opens s hs hi
      omega
  · refine Decidable.byContradiction fun hne => ?_
    obtain ⟨i, rfl⟩ := Nat.exists_eq_add_one_of_ne_zero (n := hi) (by omega)
    rcases @joined_stretches tree start i (by omega) (by omega) with
      ⟨s, hs, hi⟩ | ⟨s, hs, hi, hfirst⟩
    · exact absurd (by rw [hi]) (h.closes s hs)
    · exact absurd (h.right root hroot s hs hfrom hto hi (hi ▸ hfirst))
        (Nat.not_lt_of_le (htop s hs))

/-- All stretches fit a block, and the block is a single token or one of them. -/
structure Respected (stretches : List Stretch) (lo hi : Nat) : Prop where
  fits : ∀ s ∈ stretches, s.Fits lo hi
  whole : lo + 1 = hi ∨ ∃ s ∈ stretches, s.first = lo ∧ s.stop = hi

/-- Around a part in which a block is respected, only the other stretches have to fit it. -/
theorem Respected.extend {part whole : List Stretch} {lo hi : Nat} (h : Respected part lo hi)
    (hsub : part ⊆ whole) (hrest : ∀ s ∈ whole, s ∈ part ∨ s.Fits lo hi) :
    Respected whole lo hi where
  fits := fun s hs => (hrest s hs).elim (h.fits s) id
  whole := h.whole.imp_right (Exists.imp fun _ hs => ⟨hsub hs.1, hs.2⟩)

theorem Block.respected_of_root {tree : Tree Nat} {start lo hi : Nat} {root : Stretch}
    (h : Block (tree.stretches start) lo hi) (hlo : start ≤ lo)
    (hhi : hi ≤ start + tree.tokens.length) (hroot : root ∈ tree.stretches start)
    (htop : ∀ s ∈ tree.stretches start, s.step ≤ root.step) (hfirst : root.first = start)
    (hstop : root.stop = start + tree.tokens.length) (hfrom : lo ≤ root.index)
    (hto : root.index < hi) : Respected (tree.stretches start) lo hi := by
  obtain ⟨rfl, rfl⟩ := h.eq_whole hlo hhi hroot htop hfrom hto
  refine ⟨fun s hs => ?_, Or.inr ⟨root, hroot, hfirst, hstop⟩⟩
  obtain ⟨hfrom, _, _, hto⟩ := bounds_of_mem_stretches hs
  exact .inside hfrom hto

/-- A block in a tree is respected. -/
theorem Block.respected {tree : Tree Nat} (hd : tree.Descending) {start lo hi : Nat}
    (h : Block (tree.stretches start) lo hi) (hlo : start ≤ lo)
    (hhi : hi ≤ start + tree.tokens.length) : Respected (tree.stretches start) lo hi := by
  induction tree generalizing start with
  | leaf t =>
    have := h.lt
    rw [tokens, List.length_singleton] at hhi
    exact ⟨fun s hs => absurd hs List.not_mem_nil, Or.inl (by omega)⟩
  | unary k t right ih =>
    have hlen : start + (unary k t right).tokens.length = start + 1 + right.tokens.length := by
      rw [tokens, List.length_cons, Nat.add_assoc, Nat.add_comm 1]
    rcases Nat.eq_or_lt_of_le hlo with heq | hlo'
    · refine h.respected_of_root hlo hhi List.mem_cons_self (fun s hs => ?_) rfl hlen.symm
        (Nat.le_of_eq heq.symm) (Nat.lt_of_le_of_lt hlo h.lt)
      rcases List.mem_cons.mp hs with rfl | hs
      · exact Nat.le_refl _
      · exact Nat.le_of_lt (hd.1 _ (step_mem_labels hs))
    · have hright := ih hd.2 (h.mono (List.subset_cons_self _ _)) hlo' (hlen ▸ hhi)
      refine hright.extend (List.subset_cons_self _ _) fun s hs => ?_
      rcases List.mem_cons.mp hs with rfl | hs
      · exact Or.inr (.before hlo' (Or.inr (hlen ▸ hhi)))
      · exact Or.inl hs
  | binary k left t right ihl ihr =>
    have hlen : start + (binary k left t right).tokens.length =
        start + left.tokens.length + 1 + right.tokens.length := by
      rw [tokens, List.length_append, List.length_cons]
      omega
    have hleft : left.stretches start ⊆ (binary k left t right).stretches start :=
      fun s hs => mem_stretches_binary.mpr (Or.inr (Or.inl hs))
    have hright : right.stretches (start + left.tokens.length + 1) ⊆
        (binary k left t right).stretches start :=
      fun s hs => mem_stretches_binary.mpr (Or.inr (Or.inr hs))
    rcases Nat.lt_or_ge (start + left.tokens.length) hi with hi' | hi'
    · rcases Nat.lt_or_ge (start + left.tokens.length) lo with hlo' | hlo'
      · refine (ihr hd.2.2 (h.mono hright) hlo' (hlen ▸ hhi)).extend hright fun s hs => ?_
        rcases mem_stretches_binary.mp hs with rfl | hs | hs
        · exact Or.inr (.before hlo' (Or.inr (hlen ▸ hhi)))
        · obtain ⟨_, _, hindex, hstop⟩ := bounds_of_mem_stretches hs
          exact Or.inr (.before (by omega) (Or.inl (by omega)))
        · exact Or.inl hs
      · refine h.respected_of_root hlo hhi (mem_stretches_binary.mpr (Or.inl rfl))
          (fun s hs => ?_) rfl hlen.symm hlo' hi'
        rcases mem_stretches_binary.mp hs with rfl | hs | hs
        · exact Nat.le_refl _
        · exact Nat.le_of_lt (hd.1 _ (List.mem_append_left _ (step_mem_labels hs)))
        · exact Nat.le_of_lt (hd.1 _ (List.mem_append_right _ (step_mem_labels hs)))
    · refine (ihl hd.2.1 (h.mono hleft) hlo hi').extend hleft fun s hs => ?_
      rcases mem_stretches_binary.mp hs with rfl | hs | hs
      · exact Or.inr (.behind hi' (Or.inr hlo))
      · exact Or.inl hs
      · obtain ⟨hfirst, hindex, _, _⟩ := bounds_of_mem_stretches hs
        exact Or.inr (.behind (by omega) (Or.inl (by omega)))

/-- A block of trees side by side is respected if all neighbours in it are joined: such a block
lies in one tree. -/
theorem Block.respected_row {trees : List (Tree Nat)} (hd : ∀ tree ∈ trees, tree.Descending)
    {start lo hi : Nat} (h : Block (rowStretches start trees) lo hi) (hlo : start ≤ lo)
    (hhi : hi ≤ start + (trees.flatMap tokens).length)
    (hjoined : ∀ i, lo ≤ i → i + 1 < hi → Joined (rowStretches start trees) i) :
    Respected (rowStretches start trees) lo hi := by
  have hlt := h.lt
  induction trees generalizing start with
  | nil =>
    rw [List.flatMap_nil, List.length_nil] at hhi
    omega
  | cons tree rest ih =>
    have hfirst : ∀ {s : Stretch}, s ∈ tree.stretches start →
        s.index + 1 < s.stop ∧ s.stop ≤ start + tree.tokens.length := by
      intro s hs
      obtain ⟨_, _, hs⟩ := bounds_of_mem_stretches hs
      exact hs
    have hrest : ∀ {s : Stretch}, s ∈ rowStretches (start + tree.tokens.length) rest →
        start + tree.tokens.length ≤ s.first ∧ s.first ≤ s.index := by
      intro s hs
      obtain ⟨hfrom, hto, _⟩ := bounds_of_mem_rowStretches hs
      exact ⟨hfrom, hto⟩
    rw [List.flatMap_cons, List.length_append, ← Nat.add_assoc] at hhi
    rcases Nat.lt_or_ge (start + tree.tokens.length) hi with hi' | hi'
    · rcases Nat.lt_or_ge lo (start + tree.tokens.length) with hlo' | hlo'
      · obtain ⟨i, hi⟩ := Nat.exists_eq_add_one_of_ne_zero (Nat.ne_zero_of_lt hlo')
        rcases hjoined i (by omega) (by omega) with ⟨s, hs, hsi⟩ | ⟨s, hs, hsi, hsf⟩ <;>
          rcases List.mem_append.mp hs with hs | hs
        · have := hfirst hs
          omega
        · have := hrest hs
          omega
        · have := hfirst hs
          omega
        · have := hrest hs
          omega
      · have hlater : ∀ {s : Stretch}, s ∈ rowStretches start (tree :: rest) → lo ≤ s.index →
            s ∈ rowStretches (start + tree.tokens.length) rest := by
          intro s hs hlos
          rcases List.mem_append.mp hs with hs | hs
          · have := hfirst hs
            omega
          · exact hs
        have hrespected := ih (fun t ht => hd t (List.mem_cons_of_mem _ ht))
          (h.mono (List.subset_append_right _ _)) hlo' hhi fun i hlo hi => by
            rcases hjoined i hlo hi with ⟨s, hs, hsi⟩ | ⟨s, hs, hsi, hsf⟩
            · exact Or.inl ⟨s, hlater hs (by omega), hsi⟩
            · exact Or.inr ⟨s, hlater hs (by omega), hsi, hsf⟩
        refine hrespected.extend (List.subset_append_right _ _) fun s hs => ?_
        rcases List.mem_append.mp hs with hs | hs
        · have := hfirst hs
          exact Or.inr (.before (by omega) (Or.inl (by omega)))
        · exact Or.inl hs
    · have hrespected :=
        (h.mono (List.subset_append_left _ _)).respected (hd tree List.mem_cons_self) hlo hi'
      refine hrespected.extend (List.subset_append_left _ _) fun s hs => ?_
      rcases List.mem_append.mp hs with hs | hs
      · exact Or.inl hs
      · have := hrest hs
        exact Or.inr (.behind (by omega) (Or.inl (by omega)))

end Tree

end DialogueScript
