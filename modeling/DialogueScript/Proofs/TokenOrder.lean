import DialogueScript.Proofs.ExpressionFaults
import DialogueScript.Proofs.RecursiveValue
import DialogueScript.Proofs.SingleTree

/-!
# The tokens of a plan

A step can be read back: its left operand, its operator and its right operand, where an
operand that is the result of a step is read as that step. Operators are placed by depth
and order and not from left to right, but what is read back is the expression as it was
written.

Step number `k` is that of the operator at site number `k` of the schedule. So each step
has a place in the source, and the steps that no other one refers to can be put in the
order of their places.

Main statement: `Plan.flatMap_reading`. The plan of two or more tokens has one step for
each operator, and its trees, read one after the other, give all the tokens in order.
-/

namespace DialogueScript

/-! ## Reading back -/

/-- The lexemes of an operand slot, for a reading of the steps. -/
def Operand.lexemes (reading : Nat → List Lexeme) : Option Operand → List Lexeme
  | none => []
  | some (.literal v) => [.literal v]
  | some (.variable name) => [.variable name]
  | some (.result k) => reading k

namespace Plan

def reading (steps : List Step) (index : Nat) : List Lexeme :=
  let earlier k := if _ : k < index then reading steps k else []
  match steps[index]? with
  | none => []
  | some s =>
    Operand.lexemes earlier s.left ++
      ((s.operator.map Lexeme.operator).toList ++ Operand.lexemes earlier s.right)
termination_by index

/-- The index of the token that the reading of a step begins with, if the steps are those
of the operators at the sites. -/
def firstToken (sites : List Site) (steps : List Step) (index : Nat) : Nat :=
  match steps[index]?, sites[index]? with
  | some s, some site =>
    match s.left with
    | none => site.index
    | some (.result k) => if _ : k < index then firstToken sites steps k else site.index
    | some _ => site.index - 1
  | _, _ => 0
termination_by index

def startOffset (tokens : List Token) (sites : List Site) (steps : List Step) (index : Nat) : Nat :=
  (tokens[firstToken sites steps index]?.map Token.offset).getD 0

/-- The steps that no step refers to, in the order of the source. -/
def rootsInOrder (tokens : List Token) (sites : List Site) (steps : List Step) : List Nat :=
  (unreferenced steps).mergeSort fun a b =>
    startOffset tokens sites steps a ≤ startOffset tokens sites steps b

theorem lexemes_congr {f g : Nat → List Lexeme} {operand : Option Operand}
    (h : ∀ k, operand = some (.result k) → f k = g k) :
    Operand.lexemes f operand = Operand.lexemes g operand := by
  rcases operand with _ | (v | name | k)
  · rfl
  · rfl
  · rfl
  · exact h k rfl

/-- In a plan that refers backward, a step is read through all of its operands. -/
theorem reading_eq {steps : List Step} {k : Nat} {s : Step} (hb : Backward 0 steps)
    (hs : steps[k]? = some s) :
    reading steps k = Operand.lexemes (reading steps) s.left ++
      ((s.operator.map Lexeme.operator).toList ++ Operand.lexemes (reading steps) s.right) := by
  have hearlier : ∀ j ∈ s.references, (if _ : j < k then reading steps j else []) = reading steps j :=
    fun j hj => dif_pos (Nat.zero_add k ▸ hb.reference_lt hs hj)
  rw [reading]
  simp only [hs]
  rw [lexemes_congr fun j hj => hearlier j (Step.mem_references.mpr (Or.inl hj)),
    lexemes_congr fun j hj => hearlier j (Step.mem_references.mpr (Or.inr hj))]

end Plan

/-! ## Steps and sites -/

namespace Tree

/-- The operators of a tree that begins at a token index are at the sites whose numbers
label them. -/
def Sited (sites : List Site) (start : Nat) : Tree Nat → Prop
  | leaf _ => True
  | unary k _ right =>
    (∃ site, sites[k]? = some site ∧ site.index = start) ∧ right.Sited sites (start + 1)
  | binary k left _ right =>
    left.Sited sites start ∧
      (∃ site, sites[k]? = some site ∧ site.index = start + left.tokens.length) ∧
      right.Sited sites (start + left.tokens.length + 1)

theorem Sited.append {sites : List Site} {start : Nat} {tree : Tree Nat}
    (h : tree.Sited sites start) (more : List Site) : tree.Sited (sites ++ more) start := by
  have keep : ∀ {k i : Nat}, (∃ site, sites[k]? = some site ∧ site.index = i) →
      ∃ site, (sites ++ more)[k]? = some site ∧ site.index = i := by
    rintro k i ⟨site, hk, hi⟩
    refine ⟨site, ?_, hi⟩
    rw [List.getElem?_append_left (List.getElem?_eq_some_iff.mp hk).1, hk]
  induction tree generalizing start with
  | leaf t => trivial
  | unary k t right ih => exact ⟨keep h.1, ih h.2⟩
  | binary k left t right ihl ihr => exact ⟨ihl h.1, keep h.2.1, ihr h.2.2⟩

/-- A tree recorded in a plan is read back as its tokens. -/
theorem lexemes_slot {steps : List Step} {tree : Tree Nat} (hb : Plan.Backward 0 steps)
    (hr : tree.Recorded steps) (hv : tree.Valid) :
    Operand.lexemes (Plan.reading steps) tree.slot = tree.tokens.map Token.lexeme := by
  have hsymbol : ∀ {t : Token} {o : Operator}, t.operator? = some o →
      (t.operator?.map Lexeme.operator).toList = [t.lexeme] := by
    rintro ⟨o' | v | name, depth, offset⟩ o ho
    · rfl
    · exact nomatch ho
    · exact nomatch ho
  induction tree with
  | leaf t =>
    obtain ⟨o | v | name, depth, offset⟩ := t
    · exact nomatch hv
    · rfl
    · rfl
  | unary k t right ih =>
    obtain ⟨⟨o, ho, _⟩, hvr⟩ := hv
    show Plan.reading steps k = _
    rw [Plan.reading_eq hb hr.1, ih hr.2 hvr, hsymbol ho]
    rfl
  | binary k left t right ihl ihr =>
    obtain ⟨⟨o, ho, _⟩, hvl, hvr⟩ := hv
    show Plan.reading steps k = _
    rw [Plan.reading_eq hb hr.1, ihl hr.2.1 hvl, ihr hr.2.2 hvr, hsymbol ho, tokens,
      List.map_append, List.map_cons]
    rfl

/-- The reading of the step at the root of a tree begins where the tree does. -/
theorem firstToken_eq {sites : List Site} {steps : List Step} {tree : Tree Nat} {start k : Nat}
    (hb : Plan.Backward 0 steps) (hr : tree.Recorded steps) (hv : tree.Valid)
    (hs : tree.Sited sites start) (hk : tree.slot = some (.result k)) :
    Plan.firstToken sites steps k = start := by
  induction tree generalizing k with
  | leaf t =>
    obtain ⟨operand, ho, href⟩ := Token.operand?_of_operator? hv
    rw [slot, ho] at hk
    rw [hk] at href
    cases href
  | unary j t right _ =>
    cases hk
    obtain ⟨⟨site, hsite, rfl⟩, _⟩ := hs
    rw [Plan.firstToken, hr.1, hsite]
  | binary j left t right ihl _ =>
    cases hk
    obtain ⟨hleft, ⟨site, hsite, hindex⟩, _⟩ := hs
    rw [Plan.firstToken, hr.1, hsite]
    cases left with
    | leaf u =>
      obtain ⟨operand, ho, href⟩ := Token.operand?_of_operator? hv.2.1
      have hslot : (leaf u : Tree Nat).slot = some operand := ho
      rw [hslot]
      have hbefore : site.index - 1 = start := by
        rw [hindex]
        exact Nat.add_sub_cancel start 1
      cases operand with
      | result i => cases href
      | literal v => exact hbefore
      | «variable» name => exact hbefore
    | unary i u below =>
      have hlt : i < j := Nat.zero_add j ▸ hb.reference_lt hr.1 (Step.mem_references.mpr (Or.inl rfl))
      show (if _ : i < j then _ else _) = _
      rw [dif_pos hlt]
      exact ihl hr.2.1 hv.2.1 hleft rfl
    | binary i l u r =>
      have hlt : i < j := Nat.zero_add j ▸ hb.reference_lt hr.1 (Step.mem_references.mpr (Or.inl rfl))
      show (if _ : i < j then _ else _) = _
      rw [dif_pos hlt]
      exact ihl hr.2.1 hv.2.1 hleft rfl

end Tree

namespace Forest

def Sited (sites : List Site) (start : Nat) : Forest → Prop
  | [] => True
  | p :: f => (∀ tree, p = .grown tree → tree.Sited sites start) ∧
      Sited sites (start + p.tokens.length) f

theorem sited_append {sites : List Site} {start : Nat} {f g : Forest} :
    Sited sites start (f ++ g) ↔
      Sited sites start f ∧ Sited sites (start + (tokens f).length) g := by
  induction f generalizing start with
  | nil => exact ⟨fun h => ⟨trivial, h⟩, fun h => h.2⟩
  | cons p f ih =>
    have hlen : start + p.tokens.length + (tokens f).length = start + (tokens (p :: f)).length := by
      rw [tokens_cons, List.length_append, Nat.add_assoc]
    show (_ ∧ Sited sites (start + p.tokens.length) (f ++ g)) ↔ (_ ∧ Sited sites _ f) ∧ _
    rw [ih, hlen, and_assoc]

theorem Sited.more {sites : List Site} {start : Nat} {f : Forest} (h : Sited sites start f)
    (more : List Site) : Sited (sites ++ more) start f := by
  induction f generalizing start with
  | nil => trivial
  | cons p f ih => exact ⟨fun tree ht => (h.1 tree ht).append more, ih h.2⟩

theorem sited_ofTokens (start : Nat) (ts : List Token) : Sited [] start (ofTokens ts) := by
  induction ts generalizing start with
  | nil => trivial
  | cons t ts ih =>
    refine ⟨fun tree ht => ?_, ih _⟩
    have ht : (if t.operator?.isSome then .pending t else .grown (.leaf t) : Piece) = .grown tree := ht
    split at ht
    · exact nomatch ht
    · cases ht
      trivial

/-- Growth places the operator of the site that comes next. -/
theorem Grows.sited {placed : List Site} {site : Site} {f g : Forest} (h : Sited placed 0 f)
    (hg : Grows placed.length site f g) : Sited (placed ++ [site]) 0 g := by
  have hnext : (placed ++ [site])[placed.length]? = some site := by simp
  have hmore := h.more [site]
  cases hg with
  | @unary before after t right hm _ =>
    have hlen : (tokens before).length + (Piece.pending t).tokens.length +
        (Piece.grown right).tokens.length =
        (tokens before).length + (Piece.grown (.unary placed.length t right)).tokens.length := by
      simp only [Piece.tokens, Tree.tokens, List.length_cons, List.length_nil]
      omega
    rw [sited_append, Nat.zero_add] at hmore ⊢
    obtain ⟨hbefore, _, hright, hafter⟩ := hmore
    refine ⟨hbefore, fun tree ht => ?_, hlen ▸ hafter⟩
    cases ht
    exact ⟨⟨site, hnext, hm.index_eq⟩, hright right rfl⟩
  | @binary before after left right t hm _ =>
    have hlen : (tokens before).length + (Piece.grown left).tokens.length +
        (Piece.pending t).tokens.length + (Piece.grown right).tokens.length =
        (tokens before).length + (Piece.grown (.binary placed.length left t right)).tokens.length := by
      simp only [Piece.tokens, Tree.tokens, List.length_append, List.length_cons, List.length_nil]
      omega
    rw [sited_append, Nat.zero_add] at hmore ⊢
    obtain ⟨hbefore, hleft, _, hright, hafter⟩ := hmore
    refine ⟨hbefore, fun tree ht => ?_, hlen ▸ hafter⟩
    cases ht
    exact ⟨hleft left rfl, ⟨site, hnext, hm.index_eq⟩, hright right rfl⟩

end Forest

/-! ## Places in the source -/

namespace Token

/-- The tokens begin one after the other, the first of them no earlier than at an offset. -/
def Ascending (bound : Nat) (ts : List Token) : Prop :=
  (∀ t ∈ ts, bound ≤ t.offset) ∧ (ts.map Token.offset).Pairwise (· < ·)

theorem Ascending.weaken {bound more : Nat} {ts : List Token} (h : Ascending (bound + more) ts) :
    Ascending bound ts :=
  ⟨fun t ht => Nat.le_trans (Nat.le_add_right _ _) (h.1 t ht), h.2⟩

theorem ascending_scanFrom {depth offset : Nat} {last : Option Lexeme} {text : List Char}
    {ts : List Token} (h : scanFrom depth offset last text = .ok ts) : Ascending offset ts := by
  fun_induction scanFrom depth offset last text generalizing ts with
  | case1 depth offset last =>
    cases h
    exact ⟨fun t ht => absurd ht List.not_mem_nil, List.Pairwise.nil⟩
  | case2 depth offset last c rest hb ih => exact (ih h).weaken
  | case3 depth offset last rest hb ih => exact (ih h).weaken
  | case4 depth offset last rest hb hl ih => exact (ih h).weaken
  | case5 depth offset last c rest hb hl hr e hrec => cases h
  | case6 depth offset last c rest hb hl hr lexeme more hrec fault hfault => cases h
  | case7 depth offset last c rest hb hl hr lexeme more hrec hnone ih =>
    cases hrest : scanFrom depth (offset + 1 + more) (some lexeme) (rest.drop more) with
    | error e =>
      rw [hrest] at h
      cases h
    | ok us =>
      rw [hrest] at h
      cases h
      have hus : Ascending (offset + 1) us := (ih hrest).weaken
      refine ⟨fun t ht => ?_, List.pairwise_cons.mpr ⟨fun n hn => ?_, hus.2⟩⟩
      · rcases List.mem_cons.mp ht with rfl | ht
        · exact Nat.le_refl _
        · exact hus.weaken.1 t ht
      · obtain ⟨u, hu, rfl⟩ := List.mem_map.mp hn
        exact hus.1 u hu

/-- The tokens of an expression, their signs settled, begin one after the other. -/
theorem pairwise_offset_settleSigns {text : List Char} {ts : List Token} (h : scan text = .ok ts) :
    ((settleSigns false ts).map Token.offset).Pairwise (· < ·) := by
  unfold scan at h
  cases hc : checkParentheses 0 0 text with
  | error e =>
    rw [hc] at h
    exact nomatch h
  | ok u =>
    rw [hc] at h
    rw [map_offset_settleSigns]
    exact (ascending_scanFrom h).2

end Token

namespace Plan

/-- Of two tokens the one with the smaller index begins earlier. -/
theorem startOffset_lt {tokens : List Token} (h : (tokens.map Token.offset).Pairwise (· < ·))
    {sites : List Site} {steps : List Step} {a b : Nat}
    (hab : firstToken sites steps a < firstToken sites steps b)
    (hb : firstToken sites steps b < tokens.length) :
    startOffset tokens sites steps a < startOffset tokens sites steps b := by
  unfold startOffset
  rw [List.getElem?_eq_getElem hb, List.getElem?_eq_getElem (Nat.lt_trans hab hb)]
  exact List.pairwise_iff_getElem.mp (List.pairwise_map.mp h) _ _ _ hb hab

/-- Side by side, the trees of a plan begin one after the other. -/
theorem pairwise_firstToken {sites : List Site} {steps : List Step} {trees : List (Tree Nat)}
    {start : Nat} (hb : Backward 0 steps) (hr : ∀ tree ∈ trees, tree.Recorded steps)
    (hv : ∀ tree ∈ trees, tree.Valid) (hs : Forest.Sited sites start (trees.map .grown)) :
    (trees.filterMap Tree.root?).Pairwise
        (fun a b => firstToken sites steps a < firstToken sites steps b) ∧
      ∀ k ∈ trees.filterMap Tree.root?, start ≤ firstToken sites steps k ∧
        firstToken sites steps k < start + (trees.flatMap Tree.tokens).length := by
  induction trees generalizing start with
  | nil => exact ⟨List.Pairwise.nil, fun k hk => absurd hk List.not_mem_nil⟩
  | cons tree rest ih =>
    obtain ⟨hpair, hbounds⟩ := ih (fun t ht => hr t (List.mem_cons_of_mem _ ht))
      (fun t ht => hv t (List.mem_cons_of_mem _ ht)) hs.2
    have hpos := List.length_pos_iff.mpr tree.tokens_ne_nil
    have hlen : (Piece.grown tree).tokens.length = tree.tokens.length := rfl
    rw [List.flatMap_cons, List.length_append]
    cases hroot : tree.root? with
    | none =>
      rw [List.filterMap_cons, hroot]
      refine ⟨hpair, fun k hk => ?_⟩
      have := hbounds k hk
      omega
    | some k =>
      have hslot : tree.slot = some (.result k) := by
        unfold Tree.root? Operand.reference? at hroot
        split at hroot
        · next he =>
          cases hroot
          exact he
        · exact nomatch hroot
      have hfirst := Tree.firstToken_eq hb (hr tree List.mem_cons_self) (hv tree List.mem_cons_self)
        (hs.1 tree rfl) hslot
      rw [List.filterMap_cons, hroot]
      refine ⟨List.pairwise_cons.mpr ⟨fun j hj => ?_, hpair⟩, fun j hj => ?_⟩
      · have := hbounds j hj
        omega
      · rcases List.mem_cons.mp hj with rfl | hj
        · omega
        · have := hbounds j hj
          omega

/-- Read one after the other, trees give their tokens. -/
theorem flatMap_reading_roots {steps : List Step} {trees : List (Tree Nat)} (hb : Backward 0 steps)
    (hr : ∀ tree ∈ trees, tree.Recorded steps) (hv : ∀ tree ∈ trees, tree.Valid)
    (hrooted : ∀ tree ∈ trees, ∃ k, tree.slot = some (.result k)) :
    (trees.filterMap Tree.root?).flatMap (reading steps) =
      (trees.flatMap Tree.tokens).map Token.lexeme := by
  induction trees with
  | nil => rfl
  | cons tree rest ih =>
    obtain ⟨k, hk⟩ := hrooted tree List.mem_cons_self
    have hroot : tree.root? = some k := by
      rw [Tree.root?, hk]
      rfl
    have hread : reading steps k = tree.tokens.map Token.lexeme := by
      rw [← tree.lexemes_slot hb (hr tree List.mem_cons_self) (hv tree List.mem_cons_self), hk]
      rfl
    rw [List.filterMap_cons, hroot, List.flatMap_cons, hread, List.flatMap_cons, List.map_append,
      ih (fun t ht => hr t (List.mem_cons_of_mem _ ht)) (fun t ht => hv t (List.mem_cons_of_mem _ ht))
        fun t ht => hrooted t (List.mem_cons_of_mem _ ht)]

/-- A list in the order of its strictly increasing keys is what sorting by the keys gives. -/
theorem mergeSort_eq_of_perm {key : Nat → Nat} {l roots : List Nat} (hperm : l.Perm roots)
    (h : roots.Pairwise fun a b => key a < key b) :
    (l.mergeSort fun a b => key a ≤ key b) = roots := by
  have hsorted : (l.mergeSort fun a b => key a ≤ key b).Pairwise fun a b => key a ≤ key b := by
    refine (List.pairwise_mergeSort ?_ ?_ l).imp of_decide_eq_true
    · intro a b c hab hbc
      exact decide_eq_true (Nat.le_trans (of_decide_eq_true hab) (of_decide_eq_true hbc))
    · intro a b
      rw [Bool.or_eq_true, decide_eq_true_eq, decide_eq_true_eq]
      exact Nat.le_total _ _
  have hall := (List.mergeSort_perm l fun a b => decide (key a ≤ key b)).trans hperm
  have hinj : (roots.map key).Nodup := List.pairwise_map.mpr (h.imp Nat.ne_of_lt)
  refine List.Perm.eq_of_pairwise (fun a b ha hb hab hba => ?_) hsorted (h.imp Nat.le_of_lt) hall
  exact List.inj_on_of_nodup_map hinj (hall.mem_iff.mp ha) hb (Nat.le_antisymm hab hba)

end Plan

/-! ## Whole plans -/

/-- A run makes one step for each site, in the order of the sites. -/
theorem Draft.operators_of_foldlM {d d' : Draft} {schedule : List Site}
    (h : schedule.foldlM Draft.place d = .ok d') :
    d'.steps.map Step.operator =
      d.steps.map Step.operator ++ schedule.map fun site => some site.operator := by
  induction schedule generalizing d with
  | nil =>
    cases h
    rw [List.map_nil, List.append_nil]
  | cons site rest ih =>
    rw [List.foldlM_cons] at h
    cases hp : d.place site with
    | error e =>
      rw [hp] at h
      exact nomatch h
    | ok d₁ =>
      rw [hp] at h
      obtain ⟨left, right, hsteps⟩ := steps_of_place hp
      rw [ih h, hsteps, List.map_append, List.append_assoc]
      rfl

namespace Site

theorem length_ofTokens (index : Nat) (ts : List Token) :
    (ofTokens index ts).length = ts.countP fun t => t.operator?.isSome := by
  induction ts generalizing index with
  | nil => rfl
  | cons t ts ih =>
    rw [ofTokens, List.countP_cons]
    cases t.operator? with
    | none => exact ih (index + 1)
    | some o => exact congrArg (· + 1) (ih (index + 1))

/-- Which operators stand where depends on the lexemes only. -/
theorem operators_ofTokens_congr {index : Nat} {ts us : List Token}
    (h : ts.map Token.lexeme = us.map Token.lexeme) :
    ((ofTokens index ts).map fun site => (site.index, site.operator)) =
      (ofTokens index us).map fun site => (site.index, site.operator) := by
  induction ts generalizing index us with
  | nil =>
    rw [List.map_nil] at h
    rw [List.map_eq_nil_iff.mp h.symm]
  | cons t ts ih =>
    cases us with
    | nil => exact nomatch h
    | cons u us =>
      obtain ⟨hl, hr⟩ := List.cons.inj h
      rw [ofTokens, ofTokens, Token.operator?_congr hl]
      cases u.operator? with
      | none => exact ih hr
      | some o => exact congrArg (_ :: ·) (ih hr)

end Site

namespace Plan

theorem ofTokens_eq_ofDraft {ts : List Token} (h : 2 ≤ ts.length) : ofTokens ts = ofDraft ts := by
  match ts, h with
  | _ :: _ :: _, _ => rfl

/-- The trees of two or more tokens, read in the order of the source, are the tokens. -/
theorem flatMap_reading_of_ofDraft {ts : List Token} {plan : Plan} (h : ofDraft ts = .ok plan)
    (hts : (ts.map Token.offset).Pairwise (· < ·)) :
    (rootsInOrder ts (Site.schedule (Token.raiseRuns ts)) plan.steps).flatMap (reading plan.steps) =
      ts.map Token.lexeme := by
  obtain ⟨trees, hgrown, hsited⟩ := exists_grown_of_growth
    (motive := fun placed f => Forest.Sited placed 0 f) (fun hf hg => hg.sited hf)
    (Forest.sited_ofTokens 0 _) h
  have hlen : (trees.flatMap Tree.tokens).length = ts.length := by
    rw [hgrown.tokens_eq, ← List.length_map Token.lexeme, Token.map_lexeme_raiseRuns,
      List.length_map]
  obtain ⟨hpair, hbounds⟩ :=
    pairwise_firstToken hgrown.backward hgrown.recorded hgrown.valid hsited
  -- From left to right the trees begin at later and later tokens, so sorting their roots by where
  -- they begin puts them in the order of the trees.
  have horder : rootsInOrder ts (Site.schedule (Token.raiseRuns ts)) plan.steps =
      trees.filterMap Tree.root? := by
    refine mergeSort_eq_of_perm hgrown.unreferenced_perm (hpair.imp_of_mem fun _ hb hab => ?_)
    refine startOffset_lt hts hab ?_
    have := (hbounds _ hb).2
    rwa [Nat.zero_add, hlen] at this
  rw [horder, flatMap_reading_roots hgrown.backward hgrown.recorded hgrown.valid hgrown.rooted,
    hgrown.tokens_eq, Token.map_lexeme_raiseRuns]

/-- The plan of an accepted expression of two or more tokens keeps all of them. Its steps are
those of the operators in the order of the schedule, which has every operator token once; and
the readings of the steps that no step refers to, in the order of the source, are together
the tokens of the expression with their signs settled. -/
theorem flatMap_reading {text : List Char} {tokens : List Token} {offset : Nat} {plan : Plan}
    (hs : Token.scan text = .ok tokens) (hlen : 2 ≤ tokens.length)
    (hp : compile text offset = .ok plan) :
    let settled := Token.settleSigns false tokens
    let sites := Site.schedule (Token.raiseRuns settled)
    plan.steps.map Step.operator = sites.map (fun site => some site.operator) ∧
    (sites.map fun site => (site.index, site.operator)).Perm
      ((Site.ofTokens 0 settled).map fun site => (site.index, site.operator)) ∧
    plan.steps.length = settled.countP (fun t => t.operator?.isSome) ∧
    (rootsInOrder settled sites plan.steps).flatMap (reading plan.steps) =
      settled.map Token.lexeme := by
  intro settled sites
  obtain ⟨ts, hts, hplan⟩ := exists_tokens_of_compile hp
  obtain rfl : tokens = ts := Except.ok.inj (hs.symm.trans hts)
  have hsettled : settled.length = tokens.length := by
    rw [← List.length_map Token.offset, Token.map_offset_settleSigns, List.length_map]
  have hdraft : ofDraft settled = .ok plan := ofTokens_eq_ofDraft (hsettled.symm ▸ hlen) ▸ hplan
  have hperm : (sites.map fun site => (site.index, site.operator)).Perm
      ((Site.ofTokens 0 settled).map fun site => (site.index, site.operator)) := by
    rw [← Site.operators_ofTokens_congr (Token.map_lexeme_raiseRuns settled)]
    exact (Site.schedule_perm (Token.raiseRuns settled)).map _
  obtain ⟨d, hrun, rfl, _⟩ := exists_run_of_ofDraft hdraft
  have hoperators : d.steps.map Step.operator = sites.map fun site => some site.operator :=
    Draft.operators_of_foldlM hrun
  refine ⟨hoperators, hperm, ?_,
    flatMap_reading_of_ofDraft hdraft (Token.pairwise_offset_settleSigns hs)⟩
  calc d.steps.length
    _ = sites.length := by simpa using congrArg List.length hoperators
    _ = (Site.ofTokens 0 settled).length := by simpa using hperm.length_eq
    _ = settled.countP _ := Site.length_ofTokens 0 settled

/-- In `a*b 'x'+-c` the negation is placed first and the sum last, and the product between
them has no part in the sum; read in the order of the source, the product comes first. -/
theorem flatMap_reading_two_trees :
    let tokens : List Token := [⟨.variable "a", 0, 0⟩, ⟨.operator .multiply, 0, 1⟩,
      ⟨.variable "b", 0, 2⟩, ⟨.literal (.str "x"), 0, 4⟩, ⟨.operator .add, 0, 7⟩,
      ⟨.operator .subtract, 0, 8⟩, ⟨.variable "c", 0, 9⟩]
    let steps : List Step := [⟨some .negate, none, some (.variable "c")⟩,
      ⟨some .multiply, some (.variable "a"), some (.variable "b")⟩,
      ⟨some .add, some (.literal (.str "x")), some (.result 0)⟩]
    let text := ['a', '*', 'b', ' ', '\'', 'x', '\'', '+', '-', 'c']
    Token.scan text = .ok tokens ∧ 2 ≤ tokens.length ∧ compile text 0 = .ok ⟨steps⟩ ∧
      (rootsInOrder (Token.settleSigns false tokens)
        (Site.schedule (Token.raiseRuns (Token.settleSigns false tokens))) steps).flatMap
          (reading steps) =
        [.variable "a", .operator .multiply, .variable "b", .literal (.str "x"), .operator .add,
          .operator .negate, .variable "c"] := by
  intro tokens steps text
  have hs : Token.scan text = .ok tokens := by cbv
  have hlen : 2 ≤ tokens.length := by decide
  have hp : compile text 0 = .ok ⟨steps⟩ := by cbv
  obtain ⟨_, _, _, hreading⟩ := flatMap_reading hs hlen hp
  exact ⟨hs, hlen, hp, hreading⟩

end Plan

end DialogueScript
