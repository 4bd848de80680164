import DialogueScript.Proofs.FaultPositions
import DialogueScript.Proofs.RoundTrip

/-!
# What a block is read from

A block lists its nodes in the order of the text: statements, and between them the
introducers that continue a branch. The reader makes one node of each fragment. Which
fragments go to which part of the block is said here by a relation that follows the
block, not the reader: a branch takes its head, the fragments beneath it and those of
its further clauses, and what is left follows the branch.

Main statements:
1. `Block.ofFragments_eq_ok_iff`: the reader accepts fragments exactly if they read as a
   block in this sense, and then it gives that block.
2. `Block.Reads.nodes_readFrom`: the nodes come from the fragments one by one.
3. `Block.Reads.find?_of_call`: a call is bound to what the registry holds.
-/

namespace DialogueScript

open Text

/-! ## Nodes -/

/-- What a block holds at one place of its text: a statement without the blocks inside
it, or an introducer that continues a branch. -/
inductive Node (φ : Type) where
  | assign (target : String) (value : Plan) (offset : Nat)
  | call (name : String) (function : φ) (arguments : List Plan) (offset : Nat)
  | branch (condition : Plan) (offset : Nat)
  | elseIf (condition : Plan)
  | otherwise

variable {φ : Type}

mutual

/-- The nodes of a statement, itself first. -/
def Statement.nodes : Statement φ → List (Node φ)
  | .assign target value offset => [.assign target value offset]
  | .call name function arguments offset => [.call name function arguments offset]
  | .branch condition body otherwise offset =>
    .branch condition offset :: (body.nodes ++ otherwise.nodes)

def Block.nodes : Block φ → List (Node φ)
  | .nil => []
  | .cons head tail => head.nodes ++ tail.nodes

/-- The nodes of the clauses that continue a branch, each introducer in front of its
block. -/
def Otherwise.nodes : Otherwise φ → List (Node φ)
  | .nothing => []
  | .block body => .otherwise :: body.nodes
  | .elseIf condition body otherwise => .elseIf condition :: (body.nodes ++ otherwise.nodes)

end

/-- The node is what the text of the fragment says, and a statement has the offset of the
fragment. -/
def Node.ReadFrom (registry : NameTable φ) (f : Fragment) : Node φ → Prop
  | .assign target value offset => f.offset = offset ∧
      StatementKind.classify f.text = .ok .assignment ∧
      Statement.readAssignment f.text = .ok (target, value)
  | .call name function arguments offset => f.offset = offset ∧
      StatementKind.classify f.text = .ok .call ∧
      Statement.readCall registry f.text = .ok (name, function, arguments)
  | .branch condition offset => f.offset = offset ∧
      StatementKind.classify f.text = .ok .branch ∧
      Statement.readCondition .onIf f.text = .ok condition
  | .elseIf condition => Introducer.isElseIf f.text = true ∧
      Statement.readCondition .onElseIf f.text = .ok condition
  | .otherwise => Introducer.isElse f.text = true ∧ Introducer.isElseIf f.text = false

/-! ## Reading as a relation -/

mutual

/-- The fragments `own` read as a statement where the fragments `rest` follow. -/
inductive Statement.Reads (registry : NameTable φ) :
    Statement φ → List Fragment → List Fragment → Prop
  | assign {target : String} {value : Plan} {offset : Nat} {f : Fragment} {rest : List Fragment} :
      (Node.assign target value offset).ReadFrom registry f →
      Statement.Reads registry (.assign target value offset) [f] rest
  | call {name : String} {function : φ} {arguments : List Plan} {offset : Nat} {f : Fragment}
      {rest : List Fragment} : (Node.call name function arguments offset).ReadFrom registry f →
      Statement.Reads registry (.call name function arguments offset) [f] rest
  | branch {condition : Plan} {body : Block φ} {otherwise : Otherwise φ} {offset : Nat}
      {f : Fragment} {inner more rest : List Fragment} :
      (Node.branch condition offset).ReadFrom registry f → f.Heads inner (more ++ rest) →
      Block.Reads registry body inner → Otherwise.Reads registry f.depth otherwise more rest →
      Statement.Reads registry (.branch condition body otherwise offset) (f :: (inner ++ more)) rest

inductive Block.Reads (registry : NameTable φ) : Block φ → List Fragment → Prop
  | nil : Block.Reads registry .nil []
  | cons {head : Statement φ} {tail : Block φ} {own rest : List Fragment} :
      Statement.Reads registry head own rest → Block.Reads registry tail rest →
      Block.Reads registry (.cons head tail) (own ++ rest)

/-- The fragments `own` read as the clauses that continue a branch at a depth where the
fragments `rest` follow. -/
inductive Otherwise.Reads (registry : NameTable φ) :
    Nat → Otherwise φ → List Fragment → List Fragment → Prop
  | nothing {depth : Nat} {rest : List Fragment} :
      (∀ f, rest.head? = some f → f.depth = depth → Introducer.isElse f.text = false) →
      Otherwise.Reads registry depth .nothing [] rest
  | block {body : Block φ} {f : Fragment} {inner rest : List Fragment} :
      Node.otherwise.ReadFrom registry f → f.Heads inner rest → Block.Reads registry body inner →
      Otherwise.Reads registry f.depth (.block body) (f :: inner) rest
  | elseIf {condition : Plan} {body : Block φ} {otherwise : Otherwise φ} {f : Fragment}
      {inner more rest : List Fragment} : (Node.elseIf condition).ReadFrom registry f →
      f.Heads inner (more ++ rest) → Block.Reads registry body inner →
      Otherwise.Reads registry f.depth otherwise more rest →
      Otherwise.Reads registry f.depth (.elseIf condition body otherwise)
        (f :: (inner ++ more)) rest

end

variable {registry : NameTable φ}

/-! ## Accepted fragments -/

theorem ok_of_bind {ε α β : Type} {x : Except ε α} {f : α → Except ε β} {b : β}
    (h : x >>= f = .ok b) : ∃ a, x = .ok a ∧ f a = .ok b := by
  cases x with
  | error e => exact nomatch h
  | ok a => exact ⟨a, rfl, h⟩

theorem Fragment.heads_of_requireBlock {f : Fragment} {introducer : Introducer}
    {rest : List Fragment} (h : f.requireBlock introducer rest = .ok ()) :
    f.Heads (f.beneath rest) (f.beyond rest) where
  deep := fun g hg => by
    have hdeep := List.all_eq_true.mp List.all_takeWhile g hg
    exact of_decide_eq_true hdeep
  ne_nil := fun hnil => by
    unfold requireBlock at h
    rw [hnil] at h
    exact nomatch h
  surfaces := fun g hg => by
    have hstop := List.head?_dropWhile_not (fun g : Fragment => decide (f.depth < g.depth)) rest
    rw [show rest.dropWhile _ = f.beyond rest from rfl, hg] at hstop
    exact Nat.not_lt.mp (of_decide_eq_false hstop)

mutual

theorem Block.reads_of_ofFragments {b : Block φ} (fragments : List Fragment)
    (h : Block.ofFragments registry fragments = .ok b) : b.Reads registry fragments := by
  match fragments with
  | [] =>
    rw [Block.ofFragments] at h
    cases h
    exact .nil
  | f :: rest =>
    rw [Block.ofFragments] at h
    obtain ⟨kind, hkind, h⟩ := ok_of_bind h
    have hkind := Fragment.readWith_ok hkind
    cases kind with
    | assignment =>
      obtain ⟨⟨target, value⟩, hread, h⟩ := ok_of_bind h
      obtain ⟨tail, htail, h⟩ := ok_of_bind h
      cases h
      exact .cons (.assign ⟨rfl, hkind, Fragment.readWith_ok hread⟩)
        (Block.reads_of_ofFragments rest htail)
    | call =>
      obtain ⟨⟨name, function, arguments⟩, hread, h⟩ := ok_of_bind h
      obtain ⟨tail, htail, h⟩ := ok_of_bind h
      cases h
      exact .cons (.call ⟨rfl, hkind, Fragment.readWith_ok hread⟩)
        (Block.reads_of_ofFragments rest htail)
    | branch =>
      obtain ⟨_, hblock, h⟩ := ok_of_bind h
      obtain ⟨condition, hread, h⟩ := ok_of_bind h
      obtain ⟨body, hbody, h⟩ := ok_of_bind h
      obtain ⟨⟨otherwise, tail⟩, hmore, h⟩ := ok_of_bind h
      cases h
      have hheads := Fragment.heads_of_requireBlock hblock
      -- The clauses take a front part of what lies beyond the block and leave the tail.
      obtain ⟨own, behind, hbeyond, howise, htail⟩ :=
        Otherwise.reads_of_ofFragments f.depth (f.beyond rest) hmore
      rw [hbeyond] at hheads
      rw [← f.beneath_append_beyond rest, hbeyond, ← List.append_assoc, ← List.cons_append]
      exact .cons (.branch ⟨rfl, hkind, Fragment.readWith_ok hread⟩ hheads
        (Block.reads_of_ofFragments (f.beneath rest) hbody) howise) htail
termination_by 2 * fragments.length
decreasing_by
  all_goals
    have := f.length_beneath_le rest
    have := f.length_beyond_le rest
    simp <;> omega

theorem Otherwise.reads_of_ofFragments {otherwise : Otherwise φ} {tail : Block φ} (depth : Nat)
    (fragments : List Fragment)
    (h : Otherwise.ofFragments registry depth fragments = .ok (otherwise, tail)) :
    ∃ own rest, fragments = own ++ rest ∧ otherwise.Reads registry depth own rest ∧
      tail.Reads registry rest := by
  match fragments with
  | [] =>
    rw [Otherwise.ofFragments] at h
    cases h
    exact ⟨[], [], rfl, .nothing (fun f hf => nomatch hf), .nil⟩
  | f :: rest =>
    rw [Otherwise.ofFragments] at h
    split at h
    · next hclause =>
      rw [Bool.and_eq_true, decide_eq_true_eq] at hclause
      obtain ⟨rfl, hkind⟩ := hclause
      obtain ⟨_, hblock, h⟩ := ok_of_bind h
      obtain ⟨condition, hread, h⟩ := ok_of_bind h
      obtain ⟨body, hbody, h⟩ := ok_of_bind h
      obtain ⟨⟨otherwise, tail⟩, hmore, h⟩ := ok_of_bind h
      cases h
      have hheads := Fragment.heads_of_requireBlock hblock
      obtain ⟨own, behind, hbeyond, howise, htail⟩ :=
        Otherwise.reads_of_ofFragments f.depth (f.beyond rest) hmore
      rw [hbeyond] at hheads
      refine ⟨f :: (f.beneath rest ++ own), behind, ?_, ?_, htail⟩
      · rw [List.cons_append, List.append_assoc, ← hbeyond, f.beneath_append_beyond]
      · exact .elseIf ⟨hkind, Fragment.readWith_ok hread⟩ hheads
          (Block.reads_of_ofFragments (f.beneath rest) hbody) howise
    split at h
    · next hnot hclause =>
      rw [Bool.and_eq_true, decide_eq_true_eq] at hclause
      obtain ⟨rfl, hkind⟩ := hclause
      have hnot : Introducer.isElseIf f.text = false := by
        rw [decide_eq_true rfl, Bool.true_and, Bool.not_eq_true] at hnot
        exact hnot
      obtain ⟨_, hblock, h⟩ := ok_of_bind h
      obtain ⟨body, hbody, h⟩ := ok_of_bind h
      obtain ⟨tail, htail, h⟩ := ok_of_bind h
      cases h
      refine ⟨f :: f.beneath rest, f.beyond rest, ?_, ?_, ?_⟩
      · rw [List.cons_append, f.beneath_append_beyond]
      · exact .block ⟨hkind, hnot⟩ (Fragment.heads_of_requireBlock hblock)
          (Block.reads_of_ofFragments (f.beneath rest) hbody)
      · exact Block.reads_of_ofFragments (f.beyond rest) htail
    · next hnot =>
      obtain ⟨tail, htail, h⟩ := ok_of_bind h
      cases h
      refine ⟨[], f :: rest, rfl, .nothing (fun g hg hdepth => ?_), ?_⟩
      · cases hg
        rw [hdepth, decide_eq_true rfl, Bool.true_and, Bool.not_eq_true] at hnot
        exact hnot
      · exact Block.reads_of_ofFragments (f :: rest) htail
termination_by 2 * fragments.length + 1
decreasing_by
  all_goals
    have := f.length_beneath_le rest
    have := f.length_beyond_le rest
    simp <;> omega

end

mutual

/-- The reader puts a statement that the fragments read as in front of what follows. -/
theorem Statement.Reads.ofFragments {s : Statement φ} {own rest : List Fragment}
    (h : s.Reads registry own rest) : Block.ofFragments registry (own ++ rest) =
      (Block.ofFragments registry rest).map (.cons s) := by
  match h with
  | .assign ⟨hoffset, hkind, hread⟩ =>
    subst hoffset
    exact Block.ofFragments_assignment hkind hread
  | .call ⟨hoffset, hkind, hread⟩ =>
    subst hoffset
    exact Block.ofFragments_call hkind hread
  | .branch ⟨hoffset, hkind, hread⟩ hheads hbody hmore =>
    subst hoffset
    rw [List.cons_append, List.append_assoc]
    exact Block.ofFragments_branch hheads hkind hread hbody.ofFragments hmore.ofFragments

theorem Block.Reads.ofFragments {b : Block φ} {fragments : List Fragment}
    (h : b.Reads registry fragments) : Block.ofFragments registry fragments = .ok b := by
  match h with
  | .nil => rw [Block.ofFragments]
  | .cons hhead htail =>
    rw [hhead.ofFragments, htail.ofFragments]
    rfl

theorem Otherwise.Reads.ofFragments {otherwise : Otherwise φ} {depth : Nat}
    {own rest : List Fragment} (h : otherwise.Reads registry depth own rest) :
    Otherwise.ofFragments registry depth (own ++ rest) =
      (Block.ofFragments registry rest).map (Prod.mk otherwise) := by
  match h with
  | .nothing hnone => exact Otherwise.ofFragments_nothing hnone
  | .block ⟨hkind, hnot⟩ hheads hbody =>
    exact Otherwise.ofFragments_else rfl hheads hkind hnot hbody.ofFragments
  | .elseIf ⟨hkind, hread⟩ hheads hbody hmore =>
    rw [List.cons_append, List.append_assoc]
    exact Otherwise.ofFragments_elseIf rfl hheads hkind hread hbody.ofFragments hmore.ofFragments

end

/-- The reader accepts fragments exactly if they read as a block. -/
theorem Block.ofFragments_eq_ok_iff {b : Block φ} {fragments : List Fragment} :
    Block.ofFragments registry fragments = .ok b ↔ b.Reads registry fragments :=
  ⟨Block.reads_of_ofFragments fragments, Block.Reads.ofFragments⟩

/-! ## Nodes and their fragments -/

mutual

theorem Statement.Reads.nodes_readFrom {s : Statement φ} {own rest : List Fragment}
    (h : s.Reads registry own rest) : List.Forall₂ (Node.ReadFrom registry) own s.nodes := by
  match h with
  | .assign hread => exact .cons hread .nil
  | .call hread => exact .cons hread .nil
  | .branch hread _ hbody hmore =>
    exact .cons hread (List.rel_append hbody.nodes_readFrom hmore.nodes_readFrom)

/-- The nodes of a block come from the fragments one by one. -/
theorem Block.Reads.nodes_readFrom {b : Block φ} {fragments : List Fragment}
    (h : b.Reads registry fragments) :
    List.Forall₂ (Node.ReadFrom registry) fragments b.nodes := by
  match h with
  | .nil => exact .nil
  | .cons hhead htail => exact List.rel_append hhead.nodes_readFrom htail.nodes_readFrom

theorem Otherwise.Reads.nodes_readFrom {otherwise : Otherwise φ} {depth : Nat}
    {own rest : List Fragment} (h : otherwise.Reads registry depth own rest) :
    List.Forall₂ (Node.ReadFrom registry) own otherwise.nodes := by
  match h with
  | .nothing _ => exact .nil
  | .block hread _ hbody => exact .cons hread hbody.nodes_readFrom
  | .elseIf hread _ hbody hmore =>
    exact .cons hread (List.rel_append hbody.nodes_readFrom hmore.nodes_readFrom)

end

theorem exists_of_forall₂_of_mem {α β : Type} {R : α → β → Prop} {as : List α} {bs : List β}
    (h : List.Forall₂ R as bs) {b : β} (hb : b ∈ bs) : ∃ a ∈ as, R a b := by
  induction h with
  | nil => exact absurd hb List.not_mem_nil
  | @cons a _ as _ hab _ ih =>
    rcases List.mem_cons.mp hb with rfl | hb
    · exact ⟨a, List.mem_cons_self, hab⟩
    · obtain ⟨a', ha', hr⟩ := ih hb
      exact ⟨a', List.mem_cons_of_mem a ha', hr⟩

/-! ## Statements that are read -/

/-- The character behind the name that tells what kind of statement it is. -/
def StatementKind.sign? : StatementKind → Option Char
  | assignment => some '='
  | call => some '('
  | branch => none

/-- An assignment or a call begins with a name and its sign, with blanks at most between. -/
theorem StatementKind.leadingName?_of_classify {text : List Char} {kind : StatementKind} {sign : Char}
    (h : classify text = .ok kind) (hs : kind.sign? = some sign) :
    ∃ name blanks rest, allBlank blanks = true ∧
      leadingName? text = some (name, blanks ++ sign :: rest) := by
  unfold classify at h
  split at h
  · cases h
    cases hs
  split at h
  · cases h
  next name afterName hname =>
  have hcut : ∀ {c : Char}, (trimStart afterName).head? = some c →
      ∃ name blanks rest, allBlank blanks = true ∧
        leadingName? text = some (name, blanks ++ c :: rest) := by
    intro c hc
    refine ⟨name, afterName.takeWhile isBlank, (trimStart afterName).tail, List.all_takeWhile, ?_⟩
    rw [← List.eq_cons_of_mem_head? hc, trimStart, List.takeWhile_append_dropWhile]
    exact hname
  split at h
  · next hhead =>
    cases h
    cases hs
    exact hcut hhead
  · next hhead =>
    cases h
    cases hs
    exact hcut hhead
  · cases h

theorem Plan.ofText_of_compile {text : List Char} {offset : Nat} {plan : Plan}
    (h : compile text offset = .ok plan) : ofText text = .ok plan := by
  unfold compile at h
  cases ht : ofText text with
  | error e =>
    rw [ht] at h
    exact nomatch h
  | ok found =>
    rw [ht] at h
    cases h
    rfl

namespace Statement

/-- What is assigned to the name at the front is the text behind the first `=`. -/
theorem readAssignment_eq_ok {text : List Char} {target : String} {value : Plan}
    (h : readAssignment text = .ok (target, value)) :
    ∃ rest before expression, leadingName? text = some (target.toList, rest) ∧
      cutFirst? '=' text = some (before, expression) ∧ Plan.ofText expression = .ok value := by
  unfold readAssignment at h
  split at h
  · exact nomatch h
  next name rest hname =>
  split at h
  · exact nomatch h
  next before expression hcut =>
  cases hc : Plan.compile expression (before.length + 1) with
  | error e =>
    rw [hc] at h
    exact nomatch h
  | ok plan =>
    rw [hc] at h
    cases h
    exact ⟨rest, before, expression, by rw [hname, String.toList_ofList], hcut,
      Plan.ofText_of_compile hc⟩

/-- A call has the name at the front, what is registered under it, and its arguments. -/
theorem readCall_eq_ok {text : List Char} {name : String} {function : φ} {arguments : List Plan}
    (h : readCall registry text = .ok (name, function, arguments)) :
    ∃ rest, leadingName? text = some (name.toList, rest) ∧ registry.find? name = some function ∧
      readArguments text = .ok arguments := by
  unfold readCall at h
  split at h
  · exact nomatch h
  next found rest hname =>
  split at h
  · exact nomatch h
  next hfind =>
  cases hr : readArguments text with
  | error e =>
    rw [hr] at h
    exact nomatch h
  | ok plans =>
    rw [hr] at h
    cases h
    exact ⟨rest, by rw [hname, String.toList_ofList], hfind, rfl⟩

end Statement

/-- A call is bound to what the registry holds under its name. -/
theorem Block.Reads.find?_of_call {b : Block φ} {fragments : List Fragment}
    (h : b.Reads registry fragments) {name : String} {function : φ} {arguments : List Plan}
    {offset : Nat} (hc : Node.call name function arguments offset ∈ b.nodes) :
    registry.find? name = some function := by
  obtain ⟨f, _, _, _, hread⟩ := exists_of_forall₂_of_mem h.nodes_readFrom hc
  obtain ⟨_, _, hfind, _⟩ := Statement.readCall_eq_ok hread
  exact hfind

/-! ## What follows -/

/-- Fragments that neither continue a block beneath a depth nor a branch at it. -/
def Fragment.Closes (depth : Nat) (rest : List Fragment) : Prop :=
  ∀ g, rest.head? = some g → g.depth ≤ depth ∧ (g.depth = depth → Introducer.isElse g.text = false)

theorem Fragment.Heads.append {f : Fragment} {inner rest more : List Fragment}
    (h : f.Heads inner rest) (hm : ∀ g, more.head? = some g → g.depth ≤ f.depth) :
    f.Heads inner (rest ++ more) where
  deep := h.deep
  ne_nil := h.ne_nil
  surfaces := by
    cases rest with
    | nil => exact hm
    | cons g rest => exact h.surfaces

theorem Otherwise.Reads.append {otherwise : Otherwise φ} {depth : Nat}
    {own rest more : List Fragment} (h : otherwise.Reads registry depth own rest)
    (hm : Fragment.Closes depth more) : otherwise.Reads registry depth own (rest ++ more) := by
  match h with
  | .nothing hnone =>
    refine .nothing ?_
    cases rest with
    | nil => exact fun g hg => (hm g hg).2
    | cons g rest => exact hnone
  | .block hread hheads hbody => exact .block hread (hheads.append fun g hg => (hm g hg).1) hbody
  | .elseIf hread hheads hbody hmore =>
    have hheads := hheads.append fun g hg => (hm g hg).1
    rw [List.append_assoc] at hheads
    exact .elseIf hread hheads hbody (hmore.append hm)

/-- A statement is read in the same way if more fragments stand behind those that follow
it, provided they could not be taken for a part of it. -/
theorem Statement.Reads.append {s : Statement φ} {own rest more : List Fragment}
    (h : s.Reads registry own rest) (hm : ∀ f ∈ own, Fragment.Closes f.depth more) :
    s.Reads registry own (rest ++ more) := by
  match h with
  | .assign hread => exact .assign hread
  | .call hread => exact .call hread
  | .branch hread hheads hbody hmore =>
    have hm := hm _ List.mem_cons_self
    have hheads := hheads.append fun g hg => (hm g hg).1
    rw [List.append_assoc] at hheads
    exact .branch hread hheads hbody (hmore.append hm)

end DialogueScript
