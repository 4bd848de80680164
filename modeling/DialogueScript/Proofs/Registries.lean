import DialogueScript.Proofs.Reading
import DialogueScript.Script

/-!
# Reading a text twice

A text is read against two registries, the second of which holds every name that the
first holds, and in the second reading the text may also stand farther behind in its
source. The two readings go in step: they take the same fragments in the same order and
look up the same names, and they part only where the first registry lacks a name that
the second one holds.

Main statements:
1. `Block.parse_inStep`: the readings of a whole text.
2. `Script.compile_of_names_subset`: compiling depends on the names that a registry
   holds, and a larger registry accepts no less.
-/

namespace DialogueScript

open Text

variable {φ ψ χ : Type}

/-! ## Blocks with other functions and offsets -/

mutual

/-- A statement with other functions in its calls and other offsets. -/
def Statement.map (view : φ → ψ) (place : Nat → Nat) : Statement φ → Statement ψ
  | .assign target value offset => .assign target value (place offset)
  | .call name function arguments offset => .call name (view function) arguments (place offset)
  | .branch condition body otherwise offset =>
    .branch condition (body.map view place) (otherwise.map view place) (place offset)

def Block.map (view : φ → ψ) (place : Nat → Nat) : Block φ → Block ψ
  | .nil => .nil
  | .cons head tail => .cons (head.map view place) (tail.map view place)

def Otherwise.map (view : φ → ψ) (place : Nat → Nat) : Otherwise φ → Otherwise ψ
  | .nothing => .nothing
  | .block body => .block (body.map view place)
  | .elseIf condition body otherwise =>
    .elseIf condition (body.map view place) (otherwise.map view place)

end

/-- The block alone, whatever its calls are bound to. -/
def Block.unbound (b : Block φ) : Block Unit := b.map (fun _ => ()) id

/-- Every call of a block is bound to what the registry holds under its name. -/
def Block.BoundBy (registry : NameTable φ) (b : Block φ) : Prop :=
  ∀ name function arguments offset, Node.call name function arguments offset ∈ b.nodes →
    registry.find? name = some function

theorem Block.boundBy_of_parse {registry : NameTable φ} {source : List Char} {b : Block φ}
    (h : Block.parse registry source = .ok b) : b.BoundBy registry := by
  obtain ⟨fragments, _, h⟩ := ok_of_bind h
  intro name function arguments offset hc
  exact (Block.ofFragments_eq_ok_iff.mp h).find?_of_call hc

namespace Fragment

def shift (distance : Nat) (f : Fragment) : Fragment := { f with offset := f.offset + distance }

theorem beneath_shift (distance : Nat) (f : Fragment) (rest : List Fragment) :
    (f.shift distance).beneath (rest.map (shift distance)) =
      (f.beneath rest).map (shift distance) := by
  unfold beneath
  rw [List.takeWhile_map]
  rfl

theorem beyond_shift (distance : Nat) (f : Fragment) (rest : List Fragment) :
    (f.shift distance).beyond (rest.map (shift distance)) =
      (f.beyond rest).map (shift distance) := by
  unfold beyond
  rw [List.dropWhile_map]
  rfl

end Fragment

/-! ## Faults of the text alone -/

/-- The fault has a place, and it is not that a name is without a function. -/
def Fault.Textual (e : Located Fault) : Prop :=
  ∃ cause p, e = .atChar cause p ∧ ∀ name, cause ≠ .unknownFunction name

variable {text : List Char} {e : Located Fault}

theorem Plan.textual_of_compile {offset : Nat} (h : compile text offset = .error e) :
    Fault.Textual e := by
  obtain ⟨cause, r, _, rfl, hc, _⟩ := compile_error h
  refine ⟨cause, offset + r, rfl, fun name hname => ?_⟩
  rw [hname] at hc
  exact nomatch hc

theorem StatementKind.textual_of_classify (h : classify text = .error e) : Fault.Textual e := by
  cases classify_error h with
  | nameless _ _ => exact ⟨_, 0, rfl, fun _ hname => nomatch hname⟩
  | unknown _ _ _ _ => exact ⟨_, 0, rfl, fun _ hname => nomatch hname⟩

namespace Statement

theorem textual_of_readAssignment (h : readAssignment text = .error e) : Fault.Textual e := by
  cases readAssignment_error h with
  | nameless _ => exact ⟨_, 0, rfl, fun _ hname => nomatch hname⟩
  | signless _ => exact ⟨_, 0, rfl, fun _ hname => nomatch hname⟩
  | value _ hvalue => exact Plan.textual_of_compile hvalue

theorem textual_of_readArguments (h : readArguments text = .error e) : Fault.Textual e := by
  cases readArguments_error h with
  | unopened _ => exact ⟨_, 0, rfl, fun _ hname => nomatch hname⟩
  | unclosed _ _ => exact ⟨_, 0, rfl, fun _ hname => nomatch hname⟩
  | trailing _ _ _ => exact ⟨_, _, rfl, fun _ hname => nomatch hname⟩
  | argument _ _ _ _ hcompile => exact Plan.textual_of_compile hcompile

theorem textual_of_readCondition {introducer : Introducer}
    (h : readCondition introducer text = .error e) : Fault.Textual e := by
  cases readCondition_error h with
  | unopened _ => exact ⟨_, 0, rfl, fun _ hname => nomatch hname⟩
  | unclosed _ _ => exact ⟨_, 0, rfl, fun _ hname => nomatch hname⟩
  | inverted _ _ _ => exact ⟨_, 0, rfl, fun _ hname => nomatch hname⟩
  | before _ _ _ => exact ⟨_, 0, rfl, fun _ hname => nomatch hname⟩
  | trailing _ _ _ _ => exact ⟨_, _, rfl, fun _ hname => nomatch hname⟩
  | empty _ _ _ _ _ => exact ⟨_, _, rfl, fun _ hname => nomatch hname⟩
  | condition _ _ _ _ _ hcompile => exact Plan.textual_of_compile hcompile

end Statement

/-! ## Readings in step -/

/-- Two readings of a source in step, the second one of a copy that stands farther
behind. -/
inductive InStep (registry : NameTable φ) (registry' : NameTable ψ) (source : List Char)
    (distance : Nat) {α β : Type} (related : α → β → Prop) :
    Except (Located Fault) α → Except (Located Fault) β → Prop
  /-- Both succeed, with related results. -/
  | ok {a : α} {b : β} : related a b →
      InStep registry registry' source distance related (.ok a) (.ok b)
  /-- Both fail for the same reason, which is not a missing function. -/
  | error {cause : Fault} {p : Nat} : (∀ name, cause ≠ .unknownFunction name) →
      InStep registry registry' source distance related (.error (.atChar cause p))
        (.error (.atChar cause (p + distance)))
  /-- The first fails at a name that its registry lacks. If the other registry lacks it
  too, both fail alike. -/
  | lookup {name : String} {p : Nat} {y : Except (Located Fault) β} :
      registry.find? name = none → name.toList <+: source.drop p →
      (registry'.find? name = none →
        y = .error (.atChar (.unknownFunction name) (p + distance))) →
      InStep registry registry' source distance related
        (.error (.atChar (.unknownFunction name) p)) y

/-- The second registry holds every name that the first holds, and its functions look the
same. -/
def NameTable.Covers (registry' : NameTable ψ) (registry : NameTable φ) (view' : ψ → χ)
    (view : φ → χ) : Prop :=
  ∀ name function, registry.find? name = some function →
    ∃ function', registry'.find? name = some function' ∧ view' function' = view function

section

variable {registry : NameTable φ} {registry' : NameTable ψ} {source : List Char} {distance : Nat}

namespace InStep

theorem bind {α β γ δ : Type} {related : α → β → Prop} {related' : γ → δ → Prop}
    {x : Except (Located Fault) α} {y : Except (Located Fault) β}
    {f : α → Except (Located Fault) γ} {g : β → Except (Located Fault) δ}
    (h : InStep registry registry' source distance related x y)
    (hf : ∀ a b, x = .ok a → related a b →
      InStep registry registry' source distance related' (f a) (g b)) :
    InStep registry registry' source distance related' (x >>= f) (y >>= g) := by
  cases h with
  | ok hab => exact hf _ _ rfl hab
  | error hc => exact .error hc
  | lookup hnone hstands hy =>
    refine .lookup hnone hstands fun hnone' => ?_
    rw [hy hnone']
    rfl

/-- Against one registry two readings always end alike. -/
theorem ends_alike {α β : Type} {related : α → β → Prop} {x : Except (Located Fault) α}
    {y : Except (Located Fault) β} (h : InStep registry registry source distance related x y) :
    (∃ a b, x = .ok a ∧ y = .ok b ∧ related a b) ∨
      ∃ cause p, x = .error (.atChar cause p) ∧ y = .error (.atChar cause (p + distance)) := by
  cases h with
  | ok hab => exact Or.inl ⟨_, _, rfl, rfl, hab⟩
  | error hc => exact Or.inr ⟨_, _, rfl, rfl⟩
  | lookup hnone _ hy => exact Or.inr ⟨_, _, rfl, hy hnone⟩

theorem map {α β γ δ : Type} {related : α → β → Prop} {related' : γ → δ → Prop}
    {x : Except (Located Fault) α} {y : Except (Located Fault) β} {f : α → γ} {g : β → δ}
    (h : InStep registry registry' source distance related x y)
    (hf : ∀ a b, related a b → related' (f a) (g b)) :
    InStep registry registry' source distance related' (x.map f) (y.map g) := by
  cases h with
  | ok hab => exact .ok (hf _ _ hab)
  | error hc => exact .error hc
  | lookup hnone hstands hy =>
    refine .lookup hnone hstands fun hnone' => ?_
    rw [hy hnone']
    rfl

theorem error_shift {α β : Type} {related : α → β → Prop} (h : Fault.Textual e) (offset : Nat) :
    InStep registry registry' source distance related (.error (e.shift offset))
      (.error (e.shift (offset + distance))) := by
  obtain ⟨cause, p, rfl, hc⟩ := h
  show InStep registry registry' source distance related (.error (.atChar cause (p + offset)))
    (.error (.atChar cause (p + (offset + distance))))
  rw [← Nat.add_assoc]
  exact .error hc

theorem readWith {α : Type} {read : List Char → Except (Located Fault) α} {f : Fragment}
    (hr : ∀ {e}, read f.text = .error e → Fault.Textual e) :
    InStep registry registry' source distance Eq (f.readWith read)
      ((f.shift distance).readWith read) := by
  unfold Fragment.readWith
  show InStep registry registry' source distance Eq ((read f.text).mapError _)
    ((read f.text).mapError fun e => e.shift (f.offset + distance))
  cases hread : read f.text with
  | ok a => exact .ok rfl
  | error e => exact error_shift (hr hread) f.offset

theorem requireBlock (f : Fragment) (introducer : Introducer) (rest : List Fragment) :
    InStep registry registry' source distance Eq (f.requireBlock introducer rest)
      ((f.shift distance).requireBlock introducer (rest.map (Fragment.shift distance))) := by
  unfold Fragment.requireBlock
  rw [Fragment.beneath_shift, List.isEmpty_map]
  split
  · show InStep registry registry' source distance Eq _
      (.error (.atChar _ (f.offset + distance + f.text.length)))
    rw [Nat.add_right_comm]
    exact .error fun _ hname => nomatch hname
  · exact .ok rfl

/-- Only here do the readings depend on their registries. -/
theorem readCall {view : φ → χ} {view' : ψ → χ} (h : registry'.Covers registry view' view)
    {f : Fragment} (hf : StandsAt f.text f.offset source) :
    InStep registry registry' source distance
      (fun call call' => call'.1 = call.1 ∧ view' call'.2.1 = view call.2.1 ∧ call'.2.2 = call.2.2)
      (f.readWith (Statement.readCall registry))
      ((f.shift distance).readWith (Statement.readCall registry')) := by
  unfold Fragment.readWith
  show InStep registry registry' source distance _ ((Statement.readCall registry f.text).mapError _)
    ((Statement.readCall registry' f.text).mapError fun e => e.shift (f.offset + distance))
  unfold Statement.readCall
  cases hname : leadingName? f.text with
  | none =>
    have hfault : Fault.Textual (.atChar .invalidFunctionName 0) :=
      ⟨_, 0, rfl, fun _ hname => nomatch hname⟩
    exact error_shift hfault f.offset
  | some found =>
    obtain ⟨name, rest⟩ := found
    cases hfind : registry.find? (String.ofList name) with
    | none =>
      simp only [hfind]
      show InStep registry registry' source distance _
        (.error (.atChar (.unknownFunction (String.ofList name)) (0 + f.offset))) _
      rw [Nat.zero_add]
      refine .lookup hfind ?_ fun hfind' => ?_
      · obtain ⟨before, after, hsource, hlen⟩ := hf
        obtain ⟨htext, _⟩ := leadingName?_eq_some hname
        rw [String.toList_ofList, hsource, ← hlen, List.drop_left, htext, List.append_assoc]
        exact List.prefix_append _ _
      · simp only [hfind']
        show Except.error (Located.atChar (Fault.unknownFunction _) (0 + (f.offset + distance))) = _
        rw [Nat.zero_add]
    | some function =>
      obtain ⟨function', hfind', hview⟩ := h _ function hfind
      simp only [hfind, hfind']
      cases hr : Statement.readArguments f.text with
      | ok arguments => exact .ok ⟨rfl, hview, rfl⟩
      | error e => exact error_shift (Statement.textual_of_readArguments hr) f.offset

end InStep

namespace Fragment

theorem ofPiece_add (piece : List Char) (depth start distance : Nat) :
    ofPiece piece depth (start + distance) = (ofPiece piece depth start).map (shift distance) := by
  unfold ofPiece
  split
  · rfl
  · rw [Nat.add_right_comm]
    rfl

/-- Cutting up a text does not depend on where it stands. -/
theorem splitFrom_inStep (start depth : Nat) (read text : List Char) :
    InStep registry registry' source distance
      (fun fragments fragments' => fragments' = fragments.map (shift distance))
      (splitFrom start depth read text) (splitFrom (start + distance) depth read text) := by
  induction text generalizing start depth read with
  | nil =>
    rw [splitFrom, splitFrom]
    split
    · exact .ok (ofPiece_add _ _ _ _)
    · rw [Nat.add_right_comm]
      exact .error fun _ => Fault.noConfusion
  | cons c rest ih =>
    have hnext : ∀ depth', InStep registry registry' source distance
        (fun fragments fragments' => fragments' = fragments.map (shift distance))
        ((splitFrom (start + read.length + 1) depth' [] rest).map
          (ofPiece read.reverse depth start ++ ·))
        ((splitFrom (start + distance + read.length + 1) depth' [] rest).map
          (ofPiece read.reverse depth (start + distance) ++ ·)) := by
      intro depth'
      rw [Nat.add_right_comm start distance, Nat.add_right_comm _ distance]
      refine (ih _ depth' []).map fun fragments fragments' hf => ?_
      rw [hf, ofPiece_add, List.map_append]
    rw [splitFrom, splitFrom]
    split
    · exact hnext depth
    split
    · exact hnext (depth + 1)
    split
    · split
      · rw [Nat.add_right_comm]
        exact .error fun _ => Fault.noConfusion
      · exact hnext (depth - 1)
    · exact ih start depth (c :: read)

theorem split_inStep (text : List Char) :
    InStep registry registry' source distance
      (fun fragments fragments' => fragments' = fragments.map (shift distance))
      (split text) (splitFrom distance 0 [] text) := by
  have hstep : InStep registry registry' source distance
      (fun fragments fragments' => fragments' = fragments.map (shift distance))
      (split text) (splitFrom (0 + distance) 0 [] text) := splitFrom_inStep 0 0 [] text
  rwa [Nat.zero_add] at hstep

end Fragment

mutual

theorem Block.ofFragments_inStep {view : φ → χ} {view' : ψ → χ}
    (h : registry'.Covers registry view' view) (fragments : List Fragment)
    (hf : ∀ f ∈ fragments, StandsAt f.text f.offset source) :
    InStep registry registry' source distance
      (fun b b' => b'.map view' id = b.map view (· + distance))
      (Block.ofFragments registry fragments)
      (Block.ofFragments registry' (fragments.map (Fragment.shift distance))) := by
  match fragments with
  | [] =>
    rw [List.map_nil, Block.ofFragments, Block.ofFragments]
    exact .ok rfl
  | f :: rest =>
    have hrest : ∀ g ∈ rest, StandsAt g.text g.offset source := fun g hg =>
      hf g (List.mem_cons_of_mem f hg)
    have hbeneath : ∀ g ∈ f.beneath rest, StandsAt g.text g.offset source := fun g hg =>
      hrest g (List.takeWhile_subset _ hg)
    have hbeyond : ∀ g ∈ f.beyond rest, StandsAt g.text g.offset source := fun g hg =>
      hrest g (List.dropWhile_subset _ hg)
    rw [List.map_cons, Block.ofFragments, Block.ofFragments]
    refine (InStep.readWith StatementKind.textual_of_classify).bind fun kind kind' _ hkind => ?_
    subst hkind
    cases kind with
    | assignment =>
      refine (InStep.readWith Statement.textual_of_readAssignment).bind fun a a' _ ha => ?_
      subst ha
      refine (Block.ofFragments_inStep h rest hrest).bind fun tail tail' _ htail => .ok ?_
      exact congrArg (Block.cons _) htail
    | call =>
      refine (InStep.readCall h (hf f List.mem_cons_self)).bind fun call call' _ hcall => ?_
      obtain ⟨name, function, arguments⟩ := call
      obtain ⟨name', function', arguments'⟩ := call'
      obtain ⟨rfl, hview, rfl⟩ := hcall
      refine (Block.ofFragments_inStep h rest hrest).bind fun tail tail' _ htail => .ok ?_
      exact congrArg₂ Block.cons
        (congrArg (Statement.call name' · arguments' (f.offset + distance)) hview) htail
    | branch =>
      refine (InStep.requireBlock f .onIf rest).bind fun _ _ _ _ => ?_
      refine (InStep.readWith Statement.textual_of_readCondition).bind fun condition _ _ hc => ?_
      subst hc
      rw [Fragment.beneath_shift, Fragment.beyond_shift]
      refine (Block.ofFragments_inStep h _ hbeneath).bind fun body body' _ hbody => ?_
      refine (Otherwise.ofFragments_inStep h f.depth _ hbeyond).bind
        fun more more' _ hmore => .ok ?_
      exact congrArg₂ Block.cons
        (congrArg₂ (Statement.branch condition · · (f.offset + distance)) hbody hmore.1) hmore.2
termination_by 2 * fragments.length
decreasing_by
  all_goals
    have := f.length_beneath_le rest
    have := f.length_beyond_le rest
    simp <;> omega

theorem Otherwise.ofFragments_inStep {view : φ → χ} {view' : ψ → χ}
    (h : registry'.Covers registry view' view) (depth : Nat) (fragments : List Fragment)
    (hf : ∀ f ∈ fragments, StandsAt f.text f.offset source) :
    InStep registry registry' source distance
      (fun more more' => more'.1.map view' id = more.1.map view (· + distance) ∧
        more'.2.map view' id = more.2.map view (· + distance))
      (Otherwise.ofFragments registry depth fragments)
      (Otherwise.ofFragments registry' depth (fragments.map (Fragment.shift distance))) := by
  match fragments with
  | [] =>
    rw [List.map_nil, Otherwise.ofFragments, Otherwise.ofFragments]
    exact .ok ⟨rfl, rfl⟩
  | f :: rest =>
    have hrest : ∀ g ∈ rest, StandsAt g.text g.offset source := fun g hg =>
      hf g (List.mem_cons_of_mem f hg)
    have hbeneath : ∀ g ∈ f.beneath rest, StandsAt g.text g.offset source := fun g hg =>
      hrest g (List.takeWhile_subset _ hg)
    have hbeyond : ∀ g ∈ f.beyond rest, StandsAt g.text g.offset source := fun g hg =>
      hrest g (List.dropWhile_subset _ hg)
    rw [List.map_cons, Otherwise.ofFragments, Otherwise.ofFragments]
    show InStep registry registry' source distance _ _
      (if (decide (f.depth = depth) && Introducer.isElseIf f.text) = true then _
        else if (decide (f.depth = depth) && Introducer.isElse f.text) = true then _ else _)
    split
    · refine (InStep.requireBlock f .onElseIf rest).bind fun _ _ _ _ => ?_
      refine (InStep.readWith Statement.textual_of_readCondition).bind fun condition _ _ hc => ?_
      subst hc
      rw [Fragment.beneath_shift, Fragment.beyond_shift]
      refine (Block.ofFragments_inStep h _ hbeneath).bind fun body body' _ hbody => ?_
      refine (Otherwise.ofFragments_inStep h depth _ hbeyond).bind fun more more' _ hmore => .ok ?_
      exact ⟨congrArg₂ (Otherwise.elseIf condition) hbody hmore.1, hmore.2⟩
    split
    · refine (InStep.requireBlock f .onElse rest).bind fun _ _ _ _ => ?_
      rw [Fragment.beneath_shift, Fragment.beyond_shift]
      refine (Block.ofFragments_inStep h _ hbeneath).bind fun body body' _ hbody => ?_
      refine (Block.ofFragments_inStep h _ hbeyond).bind fun tail tail' _ htail => .ok ?_
      exact ⟨congrArg Otherwise.block hbody, htail⟩
    · refine InStep.bind (?_ : InStep registry registry' source distance
        (fun b b' => b'.map view' id = b.map view (· + distance)) _ _)
        fun tail tail' _ htail => .ok ⟨rfl, htail⟩
      exact Block.ofFragments_inStep h (f :: rest) hf
termination_by 2 * fragments.length + 1
decreasing_by
  all_goals
    have := f.length_beneath_le rest
    have := f.length_beyond_le rest
    simp <;> omega

end

/-- The readings of a whole text, the second one from a place farther behind. -/
theorem Block.parse_inStep {view : φ → χ} {view' : ψ → χ}
    (h : registry'.Covers registry view' view) (source : List Char) (distance : Nat) :
    InStep registry registry' source distance
      (fun b b' => b'.map view' id = b.map view (· + distance)) (Block.parse registry source)
      (Fragment.splitFrom distance 0 [] source >>= Block.ofFragments registry') := by
  refine (Fragment.split_inStep source).bind fun fragments _ hok hshift => ?_
  subst hshift
  refine Block.ofFragments_inStep h fragments fun f hf => ?_
  exact (Fragment.statementAt_of_mem_split hok f hf).standsAt

end

/-! ## Compiling against a larger registry -/

theorem NameTable.covers_of_names_subset {registry : NameTable φ} {registry' : NameTable ψ}
    (h : registry.names ⊆ registry'.names) :
    registry'.Covers registry (fun _ => ()) (fun _ => ()) := by
  intro name function hfind
  obtain ⟨function', hfind'⟩ := mem_names_iff.mp (h (mem_names_iff.mpr ⟨function, hfind⟩))
  exact ⟨function', hfind', rfl⟩

/-- A compiled script is its source and the block that is read from it. -/
theorem Script.parse_of_compile {registry : Registry} {source : String} {node : Option Nat}
    {code : Script} (h : Script.compile registry source node = .ok code) :
    code.source = source ∧ Block.parse registry source.toList = .ok code.root := by
  unfold Script.compile at h
  split at h
  next root hparse =>
    cases h
    exact ⟨rfl, hparse⟩
  next => exact nomatch h

/-- Against a registry with all the names of another and perhaps more, a text compiles to
the same block, with its calls bound to the functions of that registry. It fails in the
same way, unless it failed at a name that the other registry lacks: at that name, and only
there, the larger registry can help. -/
theorem Script.compile_of_names_subset {registry registry' : Registry}
    (h : registry.names ⊆ registry'.names) (source : String) (node : Option Nat) :
    (∀ code, Script.compile registry source node = .ok code →
      code.root.BoundBy registry ∧
      ∃ code', Script.compile registry' source node = .ok code' ∧ code'.source = code.source ∧
        code'.root.unbound = code.root.unbound ∧ code'.root.BoundBy registry') ∧
    (∀ e, Script.compile registry source node = .error e →
      (∀ name, e.cause ≠ .unknownFunction name) →
      Script.compile registry' source node = .error e) ∧
    ∀ e name, Script.compile registry source node = .error e → e.cause = .unknownFunction name →
      name ∉ registry.names ∧
      (∃ p, Block.parse registry source.toList = .error (.atChar (.unknownFunction name) p) ∧
        e.position = .ofOffset source.toList p node ∧ name.toList <+: source.toList.drop p) ∧
      (name ∉ registry'.names → Script.compile registry' source node = .error e) := by
  have hstep : InStep registry registry' source.toList 0 (fun b b' => b'.unbound = b.unbound)
      (Block.parse registry source.toList) (Block.parse registry' source.toList) :=
    Block.parse_inStep (NameTable.covers_of_names_subset h) source.toList 0
  unfold Script.compile
  generalize hx : Block.parse registry source.toList = x at hstep
  generalize hy : Block.parse registry' source.toList = y at hstep
  cases hstep with
  | ok hb =>
    refine ⟨fun code hcode => ?_, fun e he => (nomatch he), fun e name he => nomatch he⟩
    cases hcode
    exact ⟨Block.boundBy_of_parse hx, _, rfl, rfl, hb, Block.boundBy_of_parse hy⟩
  | error hc =>
    refine ⟨fun code hcode => (nomatch hcode), fun e he _ => he, fun e name he hname => ?_⟩
    cases he
    exact absurd hname (hc name)
  | lookup hnone hstands hy' =>
    refine ⟨fun code hcode => (nomatch hcode), fun e he hc => ?_, fun e name he hname => ?_⟩
    · cases he
      exact absurd rfl (hc _)
    · cases he
      cases hname
      refine ⟨NameTable.not_mem_names_iff.mpr hnone, ⟨_, rfl, rfl, hstands⟩, fun hnot => ?_⟩
      rw [hy' (NameTable.not_mem_names_iff.mp hnot)]
      rfl

/-- From `rand` alone to the functions that come with the language: a call of `rand` is
bound in the larger registry, and a name that neither holds is refused by both. -/
theorem Script.compile_of_names_subset_builtin :
    (NameTable.ofList [("rand", HostFunction.rand)]).names ⊆ Registry.builtin.names ∧
    (∃ code, Script.compile Registry.builtin "rand(a)" none = .ok code ∧
      code.root.unbound =
        .cons (.call "rand" () [⟨[⟨none, none, some (.variable "a")⟩]⟩] 0) .nil ∧
      code.root.BoundBy Registry.builtin) ∧
    Script.compile Registry.builtin "rand(a);fetch(b)" none =
      .error ⟨.unknownFunction "fetch", ⟨none, some 0, some 8⟩⟩ := by
  have hlarge : Registry.builtin.names = ["rand", "restartSpiel"] := by cbv
  have hsub : (NameTable.ofList [("rand", HostFunction.rand)]).names ⊆ Registry.builtin.names := by
    have hsmall : (NameTable.ofList [("rand", HostFunction.rand)]).names = ["rand"] := by cbv
    rw [hsmall, hlarge]
    decide
  have hrand : Script.compile (NameTable.ofList [("rand", HostFunction.rand)]) "rand(a)" none =
      .ok ⟨"rand(a)", .cons (.call "rand" HostFunction.rand
        [⟨[⟨none, none, some (.variable "a")⟩]⟩] 0) .nil⟩ := by cbv
  have hfetch : Script.compile (NameTable.ofList [("rand", HostFunction.rand)])
      "rand(a);fetch(b)" none = .error ⟨.unknownFunction "fetch", ⟨none, some 0, some 8⟩⟩ := by cbv
  have hnot : "fetch" ∉ Registry.builtin.names := by
    rw [hlarge]
    decide
  obtain ⟨_, code, hcode, _, hblock, hbound⟩ :=
    (Script.compile_of_names_subset hsub "rand(a)" none).1 _ hrand
  obtain ⟨_, _, hsame⟩ :=
    (Script.compile_of_names_subset hsub "rand(a);fetch(b)" none).2.2 _ "fetch" hfetch rfl
  exact ⟨hsub, ⟨code, hcode, hblock, hbound⟩, hsame hnot⟩

end DialogueScript
