import DialogueScript.Proofs.Forest

/-!
# Growing a forest along the schedule

A draft is completed by placing every operator in the order of the schedule. This
module follows the forest through the whole run.

Main statements:
1. `Forest.foldlM_place`: a run that succeeds leaves a forest of trees only, and with it
   whatever growth preserves.
2. `Plan.exists_grown_of_growth`: the plan of two or more tokens is a forest of trees whose
   tokens, read from left to right, are those of the expression.
3. `Forest.foldlM_place_of_partial`: where every operator binds after its operands,
   the run succeeds and leaves that one tree.
4. `Plan.ofDraft_of_ordered`: the plan of such a tree exists and computes its value.
-/

namespace DialogueScript

namespace Forest

/-! ## Pending operators -/

/-- The sites of the pending operators of a forest whose first token has an index. -/
def sites (index : Nat) : Forest → List Site
  | [] => []
  | .pending t :: f =>
    match t.operator? with
    | some o => ⟨index, o, t.depth, t.offset⟩ :: sites (index + 1) f
    | none => sites (index + 1) f
  | .grown tree :: f => sites (index + tree.tokens.length) f

theorem sites_append (index : Nat) (f g : Forest) :
    sites index (f ++ g) = sites index f ++ sites (index + (tokens f).length) g := by
  induction f generalizing index with
  | nil => rfl
  | cons p f ih =>
    cases p with
    | pending t =>
      have hlen : index + 1 + (tokens f).length = index + (tokens (.pending t :: f)).length := by
        rw [tokens_cons, List.length_append, Piece.tokens, List.length_singleton]
        omega
      rw [List.cons_append, sites, sites, ih, hlen]
      cases t.operator? with
      | none => rfl
      | some o => rfl
    | grown tree =>
      rw [List.cons_append, sites, sites, ih, tokens_cons, List.length_append, Piece.tokens,
        Nat.add_assoc]

theorem sites_pending {site : Site} {t : Token} {index : Nat} (hm : site.Marks t index)
    (f : Forest) : sites index (.pending t :: f) = site :: sites (index + 1) f := by
  obtain ⟨i, o, depth, offset⟩ := site
  obtain ⟨rfl, ho, rfl, rfl⟩ := hm
  rw [sites, ho]

/-- A pending operator of a site stands somewhere in the forest. -/
theorem exists_of_mem_sites {index : Nat} {f : Forest} {site : Site} (h : site ∈ sites index f) :
    ∃ before t after, f = before ++ .pending t :: after ∧
      site.Marks t (index + (tokens before).length) := by
  induction f generalizing index with
  | nil => exact absurd h List.not_mem_nil
  | cons p f ih =>
    have later : ∀ {n : Nat}, n = index + p.tokens.length → site ∈ sites n f →
        ∃ before t after, p :: f = before ++ .pending t :: after ∧
          site.Marks t (index + (tokens before).length) := by
      rintro n rfl hs
      obtain ⟨before, t, after, rfl, hm⟩ := ih hs
      refine ⟨p :: before, t, after, rfl, ?_⟩
      rw [tokens_cons, List.length_append, ← Nat.add_assoc]
      exact hm
    cases p with
    | pending t =>
      rw [sites] at h
      cases ho : t.operator? with
      | none =>
        rw [ho] at h
        exact later rfl h
      | some o =>
        rw [ho] at h
        rcases List.mem_cons.mp h with rfl | h
        · exact ⟨[], t, f, rfl, rfl, ho, rfl, rfl⟩
        · exact later rfl h
    | grown tree => exact later rfl h

/-- The sites of single tokens are those that the schedule is made of. -/
theorem sites_ofTokens (index : Nat) (ts : List Token) :
    sites index (ofTokens ts) = Site.ofTokens index ts := by
  induction ts generalizing index with
  | nil => rfl
  | cons t ts ih =>
    show sites index ((if t.operator?.isSome then .pending t else .grown (.leaf t)) :: ofTokens ts) = _
    rw [Site.ofTokens]
    cases ho : t.operator? with
    | none => exact ih (index + 1)
    | some o =>
      rw [Option.isSome_some, if_pos rfl, sites, ho, ih]

/-- Growth settles the site it happens at and no other. -/
theorem Grows.sites_perm {n : Nat} {site : Site} {f g : Forest} (h : Grows n site f g) :
    (sites 0 f).Perm (site :: sites 0 g) := by
  cases h with
  | @unary before after t right hm _ =>
    have hlen : 0 + (tokens before).length + 1 + right.tokens.length =
        0 + (tokens before).length + (Tree.unary n t right).tokens.length := by
      rw [Tree.tokens, List.length_cons]
      omega
    rw [sites_append, sites_append, sites_pending (by rwa [Nat.zero_add]), sites, sites, hlen]
    exact List.perm_middle
  | @binary before after left right t hm _ =>
    have hlen : 0 + (tokens before).length + left.tokens.length + 1 + right.tokens.length =
        0 + (tokens before).length + (Tree.binary n left t right).tokens.length := by
      rw [Tree.tokens, List.length_append, List.length_cons]
      omega
    rw [sites_append, sites_append, sites, sites_pending (by rwa [Nat.zero_add]), sites, sites, hlen]
    exact List.perm_middle

/-- Without pending operators a valid forest consists of trees. -/
theorem eq_grown_of_sites {index : Nat} {f : Forest} (hs : sites index f = [])
    (hv : ∀ p ∈ f, p.Valid) : ∃ trees : List (Tree Nat), f = trees.map .grown := by
  induction f generalizing index with
  | nil => exact ⟨[], rfl⟩
  | cons p f ih =>
    cases p with
    | pending t =>
      have ht : t.operator? ≠ none := hv _ List.mem_cons_self
      obtain ⟨o, ho⟩ := Option.ne_none_iff_exists'.mp ht
      rw [sites, ho] at hs
      exact nomatch hs
    | grown tree =>
      obtain ⟨trees, rfl⟩ := ih hs fun p hp => hv p (List.mem_cons_of_mem _ hp)
      exact ⟨tree :: trees, rfl⟩

/-! ## A whole run -/

/-- A run over all pending operators that succeeds leaves trees only, over the same
tokens. What every growth preserves holds at its end; the sites placed so far count the
steps made so far. -/
theorem foldlM_place {motive : List Site → Forest → Prop}
    (hgrow : ∀ {placed : List Site} {site : Site} {f g : Forest}, motive placed f →
      Grows placed.length site f g → motive (placed ++ [site]) g)
    {d d' : Draft} {f : Forest} {placed schedule : List Site} (h : Represents d f)
    (hlen : placed.length = d.steps.length) (hmotive : motive placed f)
    (hs : schedule.Perm (sites 0 f)) (hr : schedule.foldlM Draft.place d = .ok d') :
    ∃ trees : List (Tree Nat), Represents d' (trees.map .grown) ∧
      trees.flatMap Tree.tokens = tokens f ∧ motive (placed ++ schedule) (trees.map .grown) := by
  induction schedule generalizing d f placed with
  | nil =>
    cases hr
    obtain ⟨trees, rfl⟩ := eq_grown_of_sites (List.nil_perm.mp hs) h.valid
    refine ⟨trees, h, ?_, (List.append_nil placed).symm ▸ hmotive⟩
    rw [tokens, List.flatMap_map]
    rfl
  | cons site rest ih =>
    rw [List.foldlM_cons] at hr
    cases hp : d.place site with
    | error e =>
      rw [hp] at hr
      cases hr
    | ok d₁ =>
      rw [hp] at hr
      have hmem : site ∈ sites 0 f := hs.mem_iff.mp List.mem_cons_self
      obtain ⟨before, t, after, rfl, hm⟩ := exists_of_mem_sites hmem
      rw [Nat.zero_add] at hm
      obtain ⟨g, hg, hrep⟩ := grows_of_place h hm hp
      have hperm : rest.Perm (sites 0 g) := (hs.trans hg.sites_perm).cons_inv
      have hlen' : (placed ++ [site]).length = d₁.steps.length := by
        obtain ⟨left, right, hsteps⟩ := Draft.steps_of_place hp
        rw [hsteps, List.length_append, List.length_append, hlen]
        rfl
      obtain ⟨trees, htrees, htokens, hend⟩ := ih hrep hlen' (hgrow hmotive (hlen ▸ hg)) hperm hr
      refine ⟨trees, htrees, htokens.trans hg.tokens_eq, ?_⟩
      rwa [List.append_assoc, List.singleton_append] at hend

end Forest

/-! ## The schedule -/

namespace Site

theorem insert_perm (a : Site) (l : List Site) : (insert a l).Perm (a :: l) := by
  induction l with
  | nil => exact List.Perm.refl _
  | cons b rest ih =>
    rw [insert]
    split
    · exact List.Perm.refl _
    · exact (ih.cons b).trans (List.Perm.swap a b rest)

theorem foldr_insert_perm (l : List Site) : (l.foldr insert []).Perm l := by
  induction l with
  | nil => exact List.Perm.refl _
  | cons a l ih => exact (insert_perm a _).trans (ih.cons a)

/-- The schedule has each operator of the tokens once. -/
theorem schedule_perm (tokens : List Token) : (schedule tokens).Perm (ofTokens 0 tokens) :=
  foldr_insert_perm _

end Site

/-! ## Raising runs -/

namespace Token

variable {α : Type} {g : Token → α}

theorem map_stagger (hg : ∀ levels t, g (raise levels t) = g t) (levels : Nat) (ts : List Token) :
    (stagger levels ts).map g = ts.map g := by
  induction ts generalizing levels with
  | nil => rfl
  | cons t ts ih => rw [stagger, List.map_cons, List.map_cons, ih, hg]

theorem length_stagger (levels : Nat) (ts : List Token) :
    (stagger levels ts).length = ts.length := by
  have hmap : (stagger levels ts).map Token.lexeme = ts.map Token.lexeme :=
    map_stagger (fun _ _ => rfl) levels ts
  simpa using congrArg List.length hmap

theorem map_raiseOperand (hg : ∀ levels t, g (raise levels t) = g t) (floor levels : Nat)
    (ts : List Token) : (raiseOperand floor levels ts).map g = ts.map g := by
  cases ts with
  | nil => rfl
  | cons t ts =>
    rw [raiseOperand]
    split
    · have hraise : g ∘ raise levels = g := funext (hg levels)
      rw [List.map_cons, List.map_append, List.map_map, hraise, ← List.map_append,
        List.takeWhile_append_dropWhile, List.map_cons, hg]
    · rw [List.map_cons, List.map_cons, hg]

theorem runAfter_append_drop (t : Token) (rest : List Token) :
    runAfter t rest ++ rest.drop (runAfter t rest).length = rest := by
  unfold runAfter
  split
  · exact List.prefix_iff_eq_append.mp (List.takeWhile_prefix _)
  · rfl

/-- Raising runs changes nothing but depths. -/
theorem map_raiseRuns (hg : ∀ levels t, g (raise levels t) = g t) (ts : List Token) :
    (raiseRuns ts).map g = ts.map g := by
  fun_induction raiseRuns ts with
  | case1 => rfl
  | case2 t rest more hmore ih => rw [List.map_cons, List.map_cons, ih]
  | case3 t rest more hmore ih =>
    rw [List.map_append, map_stagger hg, ih, map_raiseOperand hg, ← List.map_append,
      List.cons_append, runAfter_append_drop]

theorem map_lexeme_raiseRuns (ts : List Token) :
    (raiseRuns ts).map Token.lexeme = ts.map Token.lexeme :=
  map_raiseRuns (fun _ _ => rfl) ts

theorem map_offset_raiseRuns (ts : List Token) :
    (raiseRuns ts).map Token.offset = ts.map Token.offset :=
  map_raiseRuns (fun _ _ => rfl) ts

end Token

/-! ## The forest of a plan -/

namespace Plan

/-- The steps of a plan are those of trees that stand side by side over the tokens. -/
structure Grown (steps : List Step) (tokens : List Token) (trees : List (Tree Nat)) : Prop where
  tokens_eq : trees.flatMap Tree.tokens = tokens
  valid : ∀ tree ∈ trees, tree.Valid
  recorded : ∀ tree ∈ trees, tree.Recorded steps
  rooted : ∀ tree ∈ trees, ∃ k, tree.slot = some (.result k)
  roots_perm : (references steps ++ trees.filterMap Tree.root?).Perm (List.range steps.length)
  backward : Backward 0 steps

/-- A tree that is no leaf has a step at its root. -/
theorem rooted_of_cells {tree : Tree Nat} (h : ∀ cell ∈ tree.cells none, cell.owner ≠ none) :
    ∃ k, tree.slot = some (.result k) := by
  cases tree with
  | leaf t => exact absurd rfl (h ⟨t, none⟩ List.mem_cons_self)
  | unary k t right => exact ⟨k, rfl⟩
  | binary k left t right => exact ⟨k, rfl⟩

theorem finish_of_owned {d : Draft} (h : ∀ cell ∈ d.cells, cell.owner ≠ none) :
    d.finish = .ok ⟨d.steps⟩ := by
  unfold Draft.finish
  rw [List.find?_eq_none.mpr fun cell hc => by simpa using h cell hc]

theorem owner_of_finish {d : Draft} {plan : Plan} (h : d.finish = .ok plan) :
    plan = ⟨d.steps⟩ ∧ ∀ cell ∈ d.cells, cell.owner ≠ none := by
  unfold Draft.finish at h
  split at h
  · exact nomatch h
  · next hf =>
    cases h
    refine ⟨rfl, fun cell hc ho => ?_⟩
    have := List.find?_eq_none.mp hf cell hc
    rw [ho] at this
    exact absurd rfl this

/-- A draft that stands for trees only holds the plan of these trees. -/
theorem Grown.of_represents {d : Draft} {trees : List (Tree Nat)}
    {tokens : List Token} (h : Forest.Represents d (trees.map .grown))
    (htokens : trees.flatMap Tree.tokens = tokens)
    (hrooted : ∀ tree ∈ trees, ∃ k, tree.slot = some (.result k)) : Grown d.steps tokens trees where
  tokens_eq := htokens
  valid := fun _ ht => h.valid _ (List.mem_map_of_mem ht)
  recorded := fun _ ht => h.recorded _ (List.mem_map_of_mem ht)
  rooted := hrooted
  roots_perm := by
    have := h.roots_perm
    rwa [Forest.roots, List.filterMap_map] at this
  backward := h.backward

theorem ofDraft_eq (ts : List Token) :
    ofDraft ts = ((Site.schedule (Token.raiseRuns ts)).foldlM Draft.place
      (Draft.ofTokens (Token.raiseRuns ts)) >>= Draft.finish) := rfl

/-- A plan of two or more tokens is what a run over their schedule leaves. -/
theorem exists_run_of_ofDraft {ts : List Token} {plan : Plan} (h : ofDraft ts = .ok plan) :
    ∃ d, (Site.schedule (Token.raiseRuns ts)).foldlM Draft.place
        (Draft.ofTokens (Token.raiseRuns ts)) = .ok d ∧ plan = ⟨d.steps⟩ ∧
      ∀ cell ∈ d.cells, cell.owner ≠ none := by
  rw [ofDraft_eq] at h
  cases hr : (Site.schedule (Token.raiseRuns ts)).foldlM Draft.place
      (Draft.ofTokens (Token.raiseRuns ts)) with
  | error e =>
    rw [hr] at h
    exact nomatch h
  | ok d =>
    rw [hr] at h
    exact ⟨d, rfl, owner_of_finish h⟩

/-- The plan of two or more tokens is a forest over them, of which everything holds that
growth along the schedule preserves. -/
theorem exists_grown_of_growth {motive : List Site → Forest → Prop}
    (hgrow : ∀ {placed : List Site} {site : Site} {f g : Forest}, motive placed f →
      Forest.Grows placed.length site f g → motive (placed ++ [site]) g)
    {ts : List Token} {plan : Plan} (hstart : motive [] (Forest.ofTokens (Token.raiseRuns ts)))
    (h : ofDraft ts = .ok plan) :
    ∃ trees, Grown plan.steps (Token.raiseRuns ts) trees ∧
      motive (Site.schedule (Token.raiseRuns ts)) (trees.map .grown) := by
  obtain ⟨d, hr, rfl, howner⟩ := exists_run_of_ofDraft h
  have hperm := Site.schedule_perm (Token.raiseRuns ts)
  rw [← Forest.sites_ofTokens] at hperm
  obtain ⟨trees, hrep, htokens, hend⟩ :=
    Forest.foldlM_place hgrow (Forest.represents_ofTokens (Token.raiseRuns ts)) rfl hstart hperm hr
  refine ⟨trees, Grown.of_represents hrep ?_ fun tree ht => rooted_of_cells fun cell hc => ?_, hend⟩
  · rw [htokens, Forest.tokens_ofTokens]
  · apply howner cell
    rw [hrep.cells]
    exact List.mem_flatMap.mpr ⟨.grown tree, List.mem_map_of_mem ht, hc⟩

theorem exists_grown {ts : List Token} {plan : Plan} (h : ofDraft ts = .ok plan) :
    ∃ trees, Grown plan.steps (Token.raiseRuns ts) trees := by
  obtain ⟨trees, hgrown, _⟩ :=
    exists_grown_of_growth (motive := fun _ _ => True) (fun _ _ => trivial) trivial h
  exact ⟨trees, hgrown⟩

namespace Grown

variable {steps : List Step} {tokens : List Token} {trees : List (Tree Nat)}

theorem nodup (h : Grown steps tokens trees) :
    (references steps ++ trees.filterMap Tree.root?).Nodup :=
  h.roots_perm.nodup_iff.mpr List.nodup_range

theorem linear (h : Grown steps tokens trees) : Linear steps :=
  ⟨h.backward, (List.nodup_append.mp h.nodup).1⟩

theorem length_roots (h : Grown steps tokens trees) :
    (trees.filterMap Tree.root?).length = trees.length := by
  have hr := h.rooted
  clear h
  induction trees with
  | nil => rfl
  | cons tree rest ih =>
    obtain ⟨k, hk⟩ := hr tree List.mem_cons_self
    rw [List.filterMap_cons, Tree.root?, hk]
    show _ + 1 = _ + 1
    rw [ih fun t ht => hr t (List.mem_cons_of_mem _ ht)]

/-- Nothing refers to the last step, so it is the root of a tree. -/
theorem last_mem_roots (h : Grown steps tokens trees) (hne : steps ≠ []) :
    steps.length - 1 ∈ trees.filterMap Tree.root? := by
  have hpos := List.length_pos_iff.mpr hne
  have hmem : steps.length - 1 ∈ List.range steps.length := List.mem_range.mpr (by omega)
  rcases List.mem_append.mp (h.roots_perm.mem_iff.mpr hmem) with hr | hr
  · have := lt_of_mem_references h.backward hr
    omega
  · exact hr

end Grown

end Plan

/-! ## The order of the schedule -/

namespace Site

/-- The operator of one site is placed before that of another. Of two sites the left
one comes first unless the right one binds more tightly. -/
def Precedes (a b : Site) : Prop :=
  (a.index < b.index ∧ a.bindsBefore b = true) ∨ (b.index < a.index ∧ b.bindsBefore a = false)

theorem bindsBefore_iff {a b : Site} : a.bindsBefore b = true ↔
    b.depth < a.depth ∨ (a.depth = b.depth ∧ a.operator.order ≤ b.operator.order) := by
  simp [bindsBefore]

theorem bindsBefore_trans {a b c : Site} (h : a.bindsBefore b = true) (h' : b.bindsBefore c = true) :
    a.bindsBefore c = true := by
  rw [bindsBefore_iff] at h h' ⊢
  omega

theorem bindsBefore_total {a b : Site} (h : a.bindsBefore b = false) : b.bindsBefore a = true := by
  have hn : ¬a.bindsBefore b = true := by rw [h]; exact Bool.false_ne_true
  rw [bindsBefore_iff] at hn ⊢
  omega

theorem Precedes.asymm {a b : Site} (h : Precedes a b) : ¬Precedes b a := by
  rintro (⟨hi, hb⟩ | ⟨hi, hb⟩)
  · rcases h with ⟨hi', _⟩ | ⟨_, hb'⟩
    · exact absurd hi (Nat.lt_asymm hi')
    · rw [hb] at hb'
      exact nomatch hb'
  · rcases h with ⟨_, hb'⟩ | ⟨hi', _⟩
    · rw [hb] at hb'
      exact nomatch hb'
    · exact absurd hi (Nat.lt_asymm hi')

theorem Precedes.bindsBefore {a b : Site} (h : Precedes a b) : a.bindsBefore b = true := by
  rcases h with ⟨_, hb⟩ | ⟨_, hb⟩
  · exact hb
  · exact bindsBefore_total hb

/-- An operator to the left of all others is put at its place among them. -/
theorem pairwise_insert {a : Site} {l : List Site} (hl : l.Pairwise Precedes)
    (ha : ∀ b ∈ l, a.index < b.index) : (insert a l).Pairwise Precedes := by
  induction l with
  | nil => exact List.pairwise_singleton _ _
  | cons b rest ih =>
    obtain ⟨hb, hrest⟩ := List.pairwise_cons.mp hl
    rw [insert]
    split
    · next hab =>
      refine List.pairwise_cons.mpr ⟨fun c hc => Or.inl ⟨ha c hc, ?_⟩, hl⟩
      rcases List.mem_cons.mp hc with rfl | hc
      · exact hab
      · exact bindsBefore_trans hab (hb c hc).bindsBefore
    · next hab =>
      refine List.pairwise_cons.mpr ⟨fun c hc => ?_, ih hrest fun c hc => ha c (List.mem_cons_of_mem _ hc)⟩
      rcases List.mem_cons.mp ((insert_perm a rest).mem_iff.mp hc) with rfl | hc
      · exact Or.inr ⟨ha b List.mem_cons_self, Bool.eq_false_iff.mpr hab⟩
      · exact hb c hc

theorem le_index_of_mem_ofTokens {n : Nat} {ts : List Token} {a : Site} (h : a ∈ ofTokens n ts) :
    n ≤ a.index := by
  rw [← Forest.sites_ofTokens] at h
  obtain ⟨before, t, after, _, hm⟩ := Forest.exists_of_mem_sites h
  rw [hm.index_eq]
  exact Nat.le_add_right _ _

theorem pairwise_schedule (ts : List Token) : (schedule ts).Pairwise Precedes := by
  unfold schedule
  generalize 0 = n
  induction ts generalizing n with
  | nil => exact List.Pairwise.nil
  | cons t ts ih =>
    rw [ofTokens]
    cases t.operator? with
    | none => exact ih (n + 1)
    | some o =>
      refine pairwise_insert (ih (n + 1)) fun b hb => ?_
      exact le_index_of_mem_ofTokens ((foldr_insert_perm _).mem_iff.mp hb)

end Site

/-! ## Growing one tree -/

namespace Tree

variable {α : Type}

def erase : Tree α → Tree Unit
  | leaf t => leaf t
  | unary _ t right => unary () t right.erase
  | binary _ left t right => binary () left.erase t right.erase

def rootToken? : Tree α → Option Token
  | leaf _ => none
  | unary _ t _ => some t
  | binary _ _ t _ => some t

theorem tokens_erase (tree : Tree α) : tree.erase.tokens = tree.tokens := by
  induction tree with
  | leaf t => rfl
  | unary a t right ih => rw [erase, tokens, tokens, ih]
  | binary a left t right ihl ihr => rw [erase, tokens, tokens, ihl, ihr]

end Tree

namespace Token

def order (t : Token) : Nat := (t.operator?.map Operator.order).getD 0

def BindsBefore (t u : Token) : Prop :=
  u.depth < t.depth ∨ (t.depth = u.depth ∧ t.order ≤ u.order)

end Token

namespace Tree

variable {α : Type}

/-- Every operator of a tree is placed after the operators of its operands. -/
def Ordered : Tree α → Prop
  | leaf _ => True
  | unary _ t right => (∀ u, right.rootToken? = some u → ¬t.BindsBefore u) ∧ right.Ordered
  | binary _ left t right =>
    (∀ u, left.rootToken? = some u → u.BindsBefore t) ∧
      (∀ u, right.rootToken? = some u → ¬t.BindsBefore u) ∧ left.Ordered ∧ right.Ordered

end Tree

theorem Site.Marks.bindsBefore_iff {a b : Site} {t u : Token} {i j : Nat} (ha : a.Marks t i)
    (hb : b.Marks u j) : a.bindsBefore b = true ↔ t.BindsBefore u := by
  rw [Site.bindsBefore_iff, Token.BindsBefore, Token.order, Token.order, ha.operator_eq,
    hb.operator_eq, ha.depth_eq, hb.depth_eq]
  rfl

namespace Forest

/-- A forest on the way to one tree: of the target some operators are placed, and
with each of them all that stand below it. -/
inductive Partial : Forest → Tree Unit → Prop
  | full {tree : Tree Nat} {target : Tree Unit} : tree.erase = target → Partial [.grown tree] target
  | unary {f : Forest} {t : Token} {right : Tree Unit} :
      Partial f right → Partial (.pending t :: f) (.unary () t right)
  | binary {f g : Forest} {t : Token} {left right : Tree Unit} :
      Partial f left → Partial g right → Partial (f ++ .pending t :: g) (.binary () left t right)

theorem partial_ofTokens {target : Tree Unit} (h : target.Valid) :
    Partial (ofTokens target.tokens) target := by
  induction target with
  | leaf t =>
    have ht : t.operator? = none := h
    rw [Tree.tokens, ofTokens, List.map_singleton, ht]
    exact .full rfl
  | unary a t right ih =>
    obtain ⟨⟨o, ho, _⟩, hr⟩ := h
    rw [Tree.tokens, ofTokens, List.map_cons, ho]
    exact .unary (ih hr)
  | binary a left t right ihl ihr =>
    obtain ⟨⟨o, ho, _⟩, hl, hr⟩ := h
    rw [Tree.tokens, ofTokens, List.map_append, List.map_cons, ho]
    exact .binary (ihl hl) (ihr hr)

theorem index_bounds {index : Nat} {f : Forest} {site : Site} (h : site ∈ sites index f) :
    index ≤ site.index ∧ site.index < index + (tokens f).length := by
  obtain ⟨before, t, after, rfl, hm⟩ := exists_of_mem_sites h
  rw [hm.index_eq, tokens_append, tokens_cons, List.length_append, List.length_append,
    Piece.tokens, List.length_singleton]
  omega

/-- Unless a forest has become its target, the operator at the root is pending. -/
theorem Partial.full_or_root {f : Forest} {target : Tree Unit} (h : Partial f target)
    (hv : target.Valid) (index : Nat) :
    (∃ tree, f = [.grown tree] ∧ tree.erase = target) ∨
      ∃ u site, target.rootToken? = some u ∧ site ∈ sites index f ∧ site.Marks u site.index := by
  have mark : ∀ {t : Token} {o : Operator} (i : Nat), t.operator? = some o →
      Site.Marks ⟨i, o, t.depth, t.offset⟩ t i := fun i ho => ⟨rfl, ho, rfl, rfl⟩
  cases h with
  | full he => exact Or.inl ⟨_, rfl, he⟩
  | @unary f t right hf =>
    obtain ⟨⟨o, ho, _⟩, _⟩ := hv
    right
    refine ⟨t, ⟨index, o, t.depth, t.offset⟩, rfl, ?_, mark index ho⟩
    rw [sites_pending (mark index ho)]
    exact List.mem_cons_self
  | @binary f g t left right hf hg =>
    obtain ⟨⟨o, ho, _⟩, _, _⟩ := hv
    right
    refine ⟨t, ⟨index + (tokens f).length, o, t.depth, t.offset⟩, rfl, ?_, mark _ ho⟩
    rw [sites_append, sites_pending (mark _ ho)]
    exact List.mem_append_right _ List.mem_cons_self

/-- A pending operator that no pending operator precedes has its operands ready, and
growing it leads on to the target. -/
theorem Partial.grow {f : Forest} {target : Tree Unit} {site : Site} (n : Nat) (h : Partial f target)
    (hv : target.Valid) (ho : target.Ordered) (before after : Forest)
    (hs : site ∈ sites (tokens before).length f)
    (hfirst : ∀ s ∈ sites (tokens before).length f, ¬s.Precedes site) :
    ∃ g, Grows n site (before ++ (f ++ after)) (before ++ (g ++ after)) ∧ Partial g target := by
  induction h generalizing before after with
  | full _ => exact absurd hs List.not_mem_nil
  | @unary f t right hf ih =>
    obtain ⟨⟨o, hop, hu⟩, hvr⟩ := hv
    have hm : Site.Marks ⟨(tokens before).length, o, t.depth, t.offset⟩ t (tokens before).length :=
      ⟨rfl, hop, rfl, rfl⟩
    have hlen : (tokens (before ++ [.pending t])).length = (tokens before).length + 1 := by
      simp [Piece.tokens, tokens]
    rw [sites_pending hm] at hs hfirst
    rcases List.mem_cons.mp hs with rfl | hs
    · rcases hf.full_or_root hvr ((tokens before).length + 1) with
        ⟨tree, rfl, herase⟩ | ⟨u, s, hroot, hmem, hms⟩
      · refine ⟨[.grown (.unary n t tree)], ?_, .full ?_⟩
        · exact .unary hm hu
        · rw [Tree.erase, herase]
      · refine absurd (Or.inr ⟨?_, ?_⟩) (hfirst s (List.mem_cons_of_mem _ hmem))
        · exact (index_bounds hmem).1
        · rw [Bool.eq_false_iff]
          exact fun hb => ho.1 u hroot ((hm.bindsBefore_iff hms).mp hb)
    · obtain ⟨g, hg, hp⟩ := ih hvr ho.2 (before ++ [.pending t]) after
        (hlen.symm ▸ hs) (hlen.symm ▸ fun s hs' => hfirst s (List.mem_cons_of_mem _ hs'))
      refine ⟨.pending t :: g, ?_, .unary hp⟩
      rwa [List.append_assoc, List.append_assoc, List.singleton_append, List.singleton_append] at hg
  | @binary f g t left right hf hg ihl ihr =>
    obtain ⟨⟨o, hop, hu⟩, hvl, hvr⟩ := hv
    obtain ⟨hleft, hright, hol, hor⟩ := ho
    have hm : Site.Marks ⟨(tokens before).length + (tokens f).length, o, t.depth, t.offset⟩ t
        ((tokens before).length + (tokens f).length) := ⟨rfl, hop, rfl, rfl⟩
    have hlen : (tokens (before ++ (f ++ [.pending t]))).length =
        (tokens before).length + (tokens f).length + 1 := by
      simp [Piece.tokens, tokens]
      omega
    rw [sites_append, sites_pending hm] at hs hfirst
    have hfirstl : ∀ s ∈ sites (tokens before).length f, ¬s.Precedes site :=
      fun s hs' => hfirst s (List.mem_append_left _ hs')
    have hfirstr : ∀ s ∈ sites ((tokens before).length + (tokens f).length + 1) g,
        ¬s.Precedes site :=
      fun s hs' => hfirst s (List.mem_append_right _ (List.mem_cons_of_mem _ hs'))
    rcases List.mem_append.mp hs with hs | hs
    · obtain ⟨f', hf', hp⟩ := ihl hvl hol before (.pending t :: g ++ after) hs hfirstl
      refine ⟨f' ++ .pending t :: g, ?_, .binary hp hg⟩
      rwa [List.append_assoc, List.append_assoc]
    · rcases List.mem_cons.mp hs with rfl | hs
      · rcases hf.full_or_root hvl (tokens before).length with
          ⟨l, rfl, hl⟩ | ⟨u, s, hroot, hmem, hms⟩
        · rcases hg.full_or_root hvr ((tokens before).length + (tokens [.grown l]).length + 1) with
            ⟨r, rfl, hr⟩ | ⟨u, s, hroot, hmem, hms⟩
          · refine ⟨[.grown (.binary n l t r)], ?_, .full ?_⟩
            · refine .binary ?_ hu
              simpa [Piece.tokens, tokens] using hm
            · rw [Tree.erase, hl, hr]
          · refine absurd (Or.inr ⟨?_, ?_⟩) (hfirstr s hmem)
            · exact (index_bounds hmem).1
            · rw [Bool.eq_false_iff]
              exact fun hb => hright u hroot ((hm.bindsBefore_iff hms).mp hb)
        · refine absurd (Or.inl ⟨?_, ?_⟩) (hfirstl s hmem)
          · exact (index_bounds hmem).2
          · exact (hms.bindsBefore_iff hm).mpr (hleft u hroot)
      · obtain ⟨g', hg', hp⟩ := ihr hvr hor (before ++ (f ++ [.pending t])) after
          (hlen.symm ▸ hs) (hlen.symm ▸ hfirstr)
        refine ⟨f ++ .pending t :: g', ?_, .binary hf hp⟩
        simpa using hg'

/-- Where every operator of a tree is placed after those of its operands, the run
over the schedule succeeds and leaves that tree. -/
theorem foldlM_place_of_partial {d : Draft} {f : Forest} {target : Tree Unit}
    {schedule : List Site} (h : Represents d f) (hp : Partial f target) (hv : target.Valid)
    (ho : target.Ordered) (hs : schedule.Perm (sites 0 f)) (hsorted : schedule.Pairwise Site.Precedes) :
    ∃ d' tree, schedule.foldlM Draft.place d = .ok d' ∧ Represents d' [.grown tree] ∧
      tree.erase = target := by
  induction schedule generalizing d f with
  | nil =>
    have hnil : sites 0 f = [] := List.nil_perm.mp hs
    rcases hp.full_or_root hv 0 with ⟨tree, rfl, he⟩ | ⟨u, s, _, hmem, _⟩
    · exact ⟨d, tree, rfl, h, he⟩
    · rw [hnil] at hmem
      exact absurd hmem List.not_mem_nil
  | cons site rest ih =>
    obtain ⟨hfirst, hrest⟩ := List.pairwise_cons.mp hsorted
    -- The head of a sorted schedule is a pending operator that no other one precedes.
    have hmin : ∀ s ∈ sites 0 f, ¬s.Precedes site := by
      intro s hs'
      rcases List.mem_cons.mp (hs.mem_iff.mpr hs') with rfl | hs'
      · exact fun hself => hself.asymm hself
      · exact (hfirst s hs').asymm
    obtain ⟨g, hg, hpg⟩ := hp.grow d.steps.length hv ho [] [] (hs.mem_iff.mp List.mem_cons_self) hmin
    rw [List.nil_append, List.nil_append, List.append_nil, List.append_nil] at hg
    obtain ⟨d₁, hplace, hrep⟩ := place_of_grows h hg
    obtain ⟨d', tree, hrun, hrep', he⟩ :=
      ih hrep hpg ((hs.trans hg.sites_perm).cons_inv) hrest
    refine ⟨d', tree, ?_, hrep', he⟩
    rw [List.foldlM_cons, hplace]
    exact hrun

end Forest

/-! ## The value of a tree -/

namespace Tree

variable {α : Type}

def value (store : Store) : Tree α → Value
  | leaf t => Operand.read store t.operand?
  | unary _ t right =>
    Step.value store ⟨t.operator?, none, some (.literal (right.value store))⟩
  | binary _ left t right =>
    Step.value store
      ⟨t.operator?, some (.literal (left.value store)), some (.literal (right.value store))⟩

theorem value_erase (store : Store) (tree : Tree α) : tree.erase.value store = tree.value store := by
  induction tree with
  | leaf t => rfl
  | unary a t right ih => rw [erase, value, value, ih]
  | binary a left t right ihl ihr => rw [erase, value, value, ihl, ihr]

/-- The results of a plan hold the value of each tree recorded in it. -/
theorem readWith_slot {steps : List Step} {tree : Tree Nat} (store : Store)
    (hb : Plan.Backward 0 steps) (hr : tree.Recorded steps) (hv : tree.Valid) :
    Operand.readWith store (Plan.results store steps) tree.slot = tree.value store := by
  induction tree with
  | leaf t =>
    obtain ⟨operand, ho, href⟩ := Token.operand?_of_operator? hv
    rw [slot, value, ho]
    cases operand with
    | result k => exact nomatch href
    | _ => rfl
  | unary k t right ih =>
    obtain ⟨hstep, hright⟩ := hr
    show (Plan.results store steps)[k]?.getD .undefined = _
    rw [Plan.results_getElem? hb hstep, Option.getD_some, value]
    unfold Step.valueWith Step.value
    rw [ih hright hv.2]
    rfl
  | binary k left t right ihl ihr =>
    obtain ⟨hstep, hleft, hright⟩ := hr
    show (Plan.results store steps)[k]?.getD .undefined = _
    rw [Plan.results_getElem? hb hstep, Option.getD_some, value]
    unfold Step.valueWith Step.value
    rw [ihl hleft hv.2.1, ihr hright hv.2.2]
    rfl

end Tree

namespace Plan

/-- Running a plan gives the value of the tree at whose root its last step stands. -/
theorem evaluate_eq_value {steps : List Step} {tree : Tree Nat} (hl : Linear steps)
    (hr : tree.Recorded steps) (hv : tree.Valid)
    (hroot : tree.slot = some (.result (steps.length - 1))) (store : Store) :
    evaluate ⟨steps⟩ store = tree.value store := by
  rw [evaluate_eq_getLast hl, ← tree.readWith_slot store hl.backward hr hv, hroot,
    List.getLast?_eq_getElem?, length_results]
  rfl

/-- If raising the runs of a token list gives a tree in which every operator is
placed after those of its operands, the plan exists and computes that tree. -/
theorem ofDraft_of_ordered {ts : List Token} {target : Tree Unit}
    (hts : Token.raiseRuns ts = target.tokens) (hv : target.Valid) (ho : target.Ordered)
    (hroot : target.rootToken? ≠ none) :
    ∃ plan, ofDraft ts = .ok plan ∧ ∀ store, plan.evaluate store = target.value store := by
  have hperm := Site.schedule_perm target.tokens
  rw [← Forest.sites_ofTokens] at hperm
  obtain ⟨d, tree, hrun, hrep, herase⟩ :=
    Forest.foldlM_place_of_partial (Forest.represents_ofTokens target.tokens)
      (Forest.partial_ofTokens hv) hv ho hperm (Site.pairwise_schedule target.tokens)
  have hrooted : ∃ k, tree.slot = some (.result k) := by
    cases tree with
    | leaf t =>
      rw [← herase] at hroot
      exact absurd rfl hroot
    | unary k t right => exact ⟨k, rfl⟩
    | binary k left t right => exact ⟨k, rfl⟩
  have hgrown : Grown d.steps target.tokens [tree] := by
    refine Grown.of_represents hrep ?_ fun t ht => List.mem_singleton.mp ht ▸ hrooted
    rw [← herase, tree.tokens_erase, List.flatMap_singleton]
  refine ⟨⟨d.steps⟩, ?_, fun store => ?_⟩
  · rw [ofDraft_eq, hts, hrun]
    refine finish_of_owned fun cell hc => ?_
    rw [hrep.cells, Forest.cells_cons] at hc
    exact tree.owner_ne_none hrooted cell (by simpa [Forest.cells, Piece.cells] using hc)
  · obtain ⟨k, hk⟩ := hrooted
    -- The last step is the root of some tree, and there is only one.
    have hlast := hgrown.last_mem_roots fun hnil => by
      have hlt := hrep.root_lt (Forest.mem_roots_of_slot List.mem_cons_self hk)
      rw [hnil] at hlt
      exact absurd hlt (Nat.not_lt_zero k)
    have hk' : k = d.steps.length - 1 := by
      rw [List.filterMap_cons, Tree.root?, hk] at hlast
      exact (List.mem_singleton.mp hlast).symm
    have hmem : tree ∈ [tree] := List.mem_cons_self
    rw [← herase, tree.value_erase]
    exact evaluate_eq_value hgrown.linear (hgrown.recorded tree hmem) (hgrown.valid tree hmem)
      (hk' ▸ hk) store

end Plan

end DialogueScript
