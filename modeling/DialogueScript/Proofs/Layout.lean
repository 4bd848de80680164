import DialogueScript.Proofs.Reading

/-!
# Where a block stands among the fragments

The nodes of a block, in the order of its text, are matched one by one with the
fragments of the source. So the place of a node in that order is also the place of its
fragment, and a part of the block is a slice of the fragments. For every branch of a
block, at any level of nesting, this module lists the places of its clauses.

Main statement: `Block.parse_layout`. No fragment is lost, used twice or out of order;
the clauses of a branch stand at one depth, their blocks are not empty and stand deeper,
and what follows a branch does not stand deeper than it.
-/

namespace DialogueScript

open Text

/-! ## Branches in the list of nodes -/

/-- A clause in the list of nodes: the place of its introducer, and the number of nodes
in its block, which stand right behind. -/
structure ClauseSpan where
  introducer : Nat
  size : Nat
deriving DecidableEq

/-- A branch in the list of nodes: the clause of its `if`, the clauses that continue it,
and the place behind the last of them. -/
structure BranchSpan where
  first : ClauseSpan
  more : List ClauseSpan
  stop : Nat
deriving DecidableEq

variable {φ : Type}

/-- The clauses that continue a branch, if the first of them is at a place. -/
def Otherwise.clauses (start : Nat) : Otherwise φ → List ClauseSpan
  | .nothing => []
  | .block body => [⟨start, body.nodes.length⟩]
  | .elseIf _ body otherwise =>
    ⟨start, body.nodes.length⟩ :: otherwise.clauses (start + 1 + body.nodes.length)

mutual

/-- The branches of a statement whose first node is at a place, outer ones first. -/
def Statement.branches (start : Nat) : Statement φ → List BranchSpan
  | .assign _ _ _ => []
  | .call _ _ _ _ => []
  | .branch _ body otherwise _ =>
    let behind := start + 1 + body.nodes.length
    ⟨⟨start, body.nodes.length⟩, otherwise.clauses behind, behind + otherwise.nodes.length⟩ ::
      (body.branches (start + 1) ++ otherwise.branches behind)

def Block.branches (start : Nat) : Block φ → List BranchSpan
  | .nil => []
  | .cons head tail => head.branches start ++ tail.branches (start + head.nodes.length)

def Otherwise.branches (start : Nat) : Otherwise φ → List BranchSpan
  | .nothing => []
  | .block body => body.branches (start + 1)
  | .elseIf _ body otherwise =>
    body.branches (start + 1) ++ otherwise.branches (start + 1 + body.nodes.length)

end

/-- The introducer of a clause has a text of a kind and stands at a depth; its block is not
empty, and all of it stands deeper. -/
structure ClauseSpan.Encloses (fragments : List Fragment) (kind : List Char → Prop) (depth : Nat)
    (c : ClauseSpan) : Prop where
  introducer : ∃ f, fragments[c.introducer]? = some f ∧ kind f.text ∧ f.depth = depth
  filled : 0 < c.size
  deeper : ∀ g ∈ (fragments.drop (c.introducer + 1)).take c.size, depth < g.depth

/-- An `if` and the clauses with `else` that continue it stand at one depth and enclose
their blocks, and what follows the branch does not stand deeper. -/
def BranchSpan.Nested (fragments : List Fragment) (s : BranchSpan) : Prop :=
  ∃ depth,
    s.first.Encloses fragments (fun text => StatementKind.classify text = .ok .branch) depth ∧
    (∀ c ∈ s.more, c.Encloses fragments (fun text => Introducer.isElse text = true) depth) ∧
    ∀ g, fragments[s.stop]? = some g → g.depth ≤ depth

/-! ## Slices of the fragments -/

variable {registry : NameTable φ} {fragments : List Fragment}

theorem Fragment.Heads.encloses {f : Fragment} {inner rest behind : List Fragment}
    (h : f.Heads inner rest) {kind : List Char → Prop} (hk : kind f.text) {start : Nat}
    (hp : fragments.drop start = f :: (inner ++ behind)) :
    ClauseSpan.Encloses fragments kind f.depth ⟨start, inner.length⟩ where
  introducer := ⟨f, getElem?_of_drop hp, hk, rfl⟩
  filled := List.length_pos_iff.mpr h.ne_nil
  deeper := by
    show ∀ g ∈ (fragments.drop (start + 1)).take inner.length, f.depth < g.depth
    rw [drop_add_one hp, List.take_left]
    exact h.deep

/-- The block of a clause is right behind its introducer, and further clauses are behind
the block. -/
theorem Fragment.drop_clause {f : Fragment} {inner more : List Fragment} {body : Block φ}
    {start : Nat} (hp : fragments.drop start = f :: (inner ++ more))
    (hbody : body.Reads registry inner) :
    fragments.drop (start + 1) = inner ++ more ∧
      fragments.drop (start + 1 + body.nodes.length) = more := by
  refine ⟨drop_add_one hp, ?_⟩
  rw [← hbody.nodes_readFrom.length_eq]
  exact drop_add_length (drop_add_one hp)

theorem Otherwise.Reads.encloses {otherwise : Otherwise φ} {depth start : Nat}
    {own rest : List Fragment} (h : otherwise.Reads registry depth own rest)
    (hp : fragments.drop start = own ++ rest) :
    ∀ c ∈ otherwise.clauses start,
      c.Encloses fragments (fun text => Introducer.isElse text = true) depth := by
  match h with
  | .nothing _ => exact fun c hc => absurd hc List.not_mem_nil
  | .block hread hheads hbody =>
    intro c hc
    cases List.mem_singleton.mp hc
    rw [← hbody.nodes_readFrom.length_eq]
    exact hheads.encloses hread.1 hp
  | .elseIf hread hheads hbody hmore =>
    rw [List.cons_append, List.append_assoc] at hp
    intro c hc
    rcases List.mem_cons.mp hc with rfl | hc
    · rw [← hbody.nodes_readFrom.length_eq]
      exact hheads.encloses (Introducer.isElse_of_isElseIf hread.1) hp
    · exact hmore.encloses (Fragment.drop_clause hp hbody).2 c hc

/-- Whatever the last clause is, what follows it does not stand deeper. -/
theorem Otherwise.Reads.surfaces {otherwise : Otherwise φ} {depth : Nat}
    {own rest : List Fragment} (h : otherwise.Reads registry depth own rest)
    (hs : ∀ g, (own ++ rest).head? = some g → g.depth ≤ depth) :
    ∀ g, rest.head? = some g → g.depth ≤ depth := by
  match h with
  | .nothing _ => exact hs
  | .block _ hheads _ => exact hheads.surfaces
  | .elseIf _ hheads _ hmore => exact hmore.surfaces hheads.surfaces

/-! ## Nesting -/

/-- What follows a block beneath a head can be taken for no part of that block. -/
theorem Fragment.Heads.closes {f : Fragment} {inner rest : List Fragment}
    (h : f.Heads inner rest) : ∀ g ∈ inner, Fragment.Closes g.depth rest := by
  intro g hg r hr
  have hlt : r.depth < g.depth := Nat.lt_of_le_of_lt (h.surfaces r hr) (h.deep g hg)
  exact ⟨Nat.le_of_lt hlt, fun he => absurd he (Nat.ne_of_lt hlt)⟩

mutual

theorem Statement.Reads.nested {s : Statement φ} {own rest : List Fragment} {start : Nat}
    (h : s.Reads registry own rest) (hp : fragments.drop start = own ++ rest) :
    ∀ branch ∈ s.branches start, branch.Nested fragments := by
  match h with
  | .assign _ => exact fun branch hb => absurd hb List.not_mem_nil
  | .call _ => exact fun branch hb => absurd hb List.not_mem_nil
  | @Statement.Reads.branch _ _ _ _ _ _ f _ _ _ hread hheads hbody hmore =>
    rw [List.cons_append, List.append_assoc] at hp
    obtain ⟨hinner, hbehind⟩ := Fragment.drop_clause hp hbody
    intro branch hb
    rcases List.mem_cons.mp hb with rfl | hb
    · refine ⟨f.depth, ?_, hmore.encloses hbehind, fun g hg => ?_⟩
      · rw [← hbody.nodes_readFrom.length_eq]
        exact hheads.encloses hread.2.1 hp
      · have hstop := drop_add_length hbehind
        rw [hmore.nodes_readFrom.length_eq] at hstop
        exact hmore.surfaces hheads.surfaces g (getElem?_of_drop hstop ▸ hg)
    rcases List.mem_append.mp hb with hb | hb
    · exact hbody.nested hheads.closes hinner branch hb
    · exact hmore.nested hbehind branch hb

/-- In a run of fragments, with others behind it that could be taken for no part of it,
every branch of the block is nested. -/
theorem Block.Reads.nested {b : Block φ} {run after : List Fragment} {start : Nat}
    (h : b.Reads registry run) (ha : ∀ f ∈ run, Fragment.Closes f.depth after)
    (hp : fragments.drop start = run ++ after) :
    ∀ branch ∈ b.branches start, branch.Nested fragments := by
  match h with
  | .nil => exact fun branch hb => absurd hb List.not_mem_nil
  | .cons hhead htail =>
    rw [List.append_assoc] at hp
    have hbehind := drop_add_length hp
    rw [hhead.nodes_readFrom.length_eq] at hbehind
    intro branch hb
    rcases List.mem_append.mp hb with hb | hb
    · have hhead := hhead.append fun f hf => ha f (List.mem_append_left _ hf)
      exact hhead.nested hp branch hb
    · exact htail.nested (fun f hf => ha f (List.mem_append_right _ hf)) hbehind branch hb

theorem Otherwise.Reads.nested {otherwise : Otherwise φ} {depth start : Nat}
    {own rest : List Fragment} (h : otherwise.Reads registry depth own rest)
    (hp : fragments.drop start = own ++ rest) :
    ∀ branch ∈ otherwise.branches start, branch.Nested fragments := by
  match h with
  | .nothing _ => exact fun branch hb => absurd hb List.not_mem_nil
  | .block _ hheads hbody =>
    rw [List.cons_append] at hp
    exact hbody.nested hheads.closes (Fragment.drop_clause hp hbody).1
  | .elseIf _ hheads hbody hmore =>
    rw [List.cons_append, List.append_assoc] at hp
    obtain ⟨hinner, hbehind⟩ := Fragment.drop_clause hp hbody
    intro branch hb
    rcases List.mem_append.mp hb with hb | hb
    · exact hbody.nested hheads.closes hinner branch hb
    · exact hmore.nested hbehind branch hb

end

/-- A parsed source has one node for each of its fragments, in the same order, and each
of its branches is nested among the fragments. -/
theorem Block.parse_layout {source : List Char} {b : Block φ}
    (h : Block.parse registry source = .ok b) :
    ∃ fragments, Fragment.split source = .ok fragments ∧
      List.Forall₂ (Node.ReadFrom registry) fragments b.nodes ∧
      ∀ branch ∈ b.branches 0, branch.Nested fragments := by
  obtain ⟨fragments, hsplit, h⟩ := ok_of_bind h
  have hreads := Block.ofFragments_eq_ok_iff.mp h
  have hend : ∀ f ∈ fragments, Fragment.Closes f.depth [] :=
    fun f hf g hg => absurd hg (Option.some_ne_none g).symm
  exact ⟨fragments, hsplit, hreads.nodes_readFrom,
    hreads.nested hend (List.append_nil fragments).symm⟩

/-- A branch inside a branch with three clauses. The second clause has braces within its
braces, so that its block stands two levels deeper. -/
theorem Block.parse_layout_nested_branches :
    ∃ b, Block.parse (NameTable.ofList [("f", ())])
        ['i', 'f', '(', 'a', ')', '{', 'i', 'f', '(', 'b', ')', '{', 'x', '=', 'a', '}', '}',
          'e', 'l', 's', 'e', ' ', 'i', 'f', '(', 'b', ')', '{', '{', 'y', '=', 'b', '}', '}',
          'e', 'l', 's', 'e', '{', 'f', '(', ')', '}', 'z', '=', 'a'] = .ok b ∧
      b.branches 0 = [⟨⟨0, 2⟩, [⟨3, 1⟩, ⟨5, 1⟩], 7⟩, ⟨⟨1, 1⟩, [], 3⟩] ∧
      ∃ fragments, Fragment.split
          ['i', 'f', '(', 'a', ')', '{', 'i', 'f', '(', 'b', ')', '{', 'x', '=', 'a', '}', '}',
            'e', 'l', 's', 'e', ' ', 'i', 'f', '(', 'b', ')', '{', '{', 'y', '=', 'b', '}', '}',
            'e', 'l', 's', 'e', '{', 'f', '(', ')', '}', 'z', '=', 'a'] = .ok fragments ∧
        List.Forall₂ (Node.ReadFrom (NameTable.ofList [("f", ())])) fragments b.nodes ∧
        ∀ branch ∈ b.branches 0, branch.Nested fragments := by
  let a : Plan := ⟨[⟨none, none, some (.variable "a")⟩]⟩
  let b : Plan := ⟨[⟨none, none, some (.variable "b")⟩]⟩
  let inner : Statement Unit := .branch b (.cons (.assign "x" a 12) .nil) .nothing 6
  let more : Otherwise Unit :=
    .elseIf b (.cons (.assign "y" b 29) .nil) (.block (.cons (.call "f" () [] 39) .nil))
  exact ⟨.cons (.branch a (.cons inner .nil) more 0) (.cons (.assign "z" a 43) .nil), by cbv,
    rfl, Block.parse_layout (by cbv)⟩

end DialogueScript
