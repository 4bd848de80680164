import DialogueScript.Proofs.FaultPositions

/-!
# What splitting makes of a source

A source is cut up in one pass, with a depth that counts the open braces and a start that
moves on with every cut. Here the pass is measured against the source as a whole: when it
gets to the end, where it stops otherwise, and which characters the fragments hold.

Main statements:
1. `Fragment.splitFrom_decided`: the braces alone decide whether a source is split, and if
   it is not, where the fault stands.
2. `Fragment.laid_of_splitFrom`: the fragments lie one behind the other, each at the depth
   of its place, and hold all that is neither blank nor a mark.
3. `Fragment.split_exact`: both of them for a whole source, and what a fragment holds.
-/

namespace DialogueScript

open Text

/-! ## Trimmed texts -/

namespace Text

theorem head?_trim {text : List Char} {c : Char} (h : (trim text).head? = some c) :
    isBlank c = false := by
  obtain ⟨after, _, htext⟩ := trimEnd_append_blanks (trimStart text)
  have hhead : (trimStart text).head? = some c := by
    rw [← htext, List.head?_append]
    exact congrArg (·.or after.head?) h
  have hstop := List.head?_dropWhile_not isBlank text
  rw [trimStart] at hhead
  rw [hhead] at hstop
  exact hstop

theorem getLast?_trim {text : List Char} {c : Char} (h : (trim text).getLast? = some c) :
    isBlank c = false := by
  have hstop := List.head?_dropWhile_not isBlank (trimStart text).reverse
  rw [trim, List.getLast?_reverse, trimStart] at h
  rw [h] at hstop
  exact hstop

theorem trim_ne_nil {text : List Char} (h : allBlank text = false) : trim text ≠ [] := by
  intro hnil
  obtain ⟨after, hafter, htext⟩ := takeWhile_append_trim text
  rw [hnil, List.nil_append] at htext
  have hall : allBlank text = true := by
    rw [htext, allBlank, List.all_append, Bool.and_eq_true]
    exact ⟨List.all_takeWhile, hafter⟩
  rw [h] at hall
  exact Bool.noConfusion hall

end Text

/-! ## Braces -/

/-- The `}` at an index closes more than is open there. -/
def Text.Exceeds (opened : Nat) (text : List Char) (index : Nat) : Prop :=
  text[index]? = some '}' ∧ opened + (text.take index).count '{' < (text.take (index + 1)).count '}'

/-- Of all the right braces that close more than is open, the first one. -/
def Text.FirstExcess (opened : Nat) (text : List Char) (index : Nat) : Prop :=
  Exceeds opened text index ∧ ∀ j < index, ¬Exceeds opened text j

namespace Text

section

variable {opened opened' : Nat} {c : Char} {text : List Char}
  (hc : opened + [c].count '{' = opened' + [c].count '}')
include hc

theorem not_exceeds_zero : ¬Exceeds opened (c :: text) 0 := by
  rintro ⟨hbrace, hlt⟩
  cases hbrace
  have hone : (('}' :: text).take (0 + 1)).count '}' = 1 := rfl
  have hright : ['}'].count '}' = 1 := rfl
  have hleft : ['}'].count '{' = 0 := rfl
  omega

/-- A character in front that leaves a number of braces open moves what comes after it on. -/
theorem exceeds_succ {i : Nat} : Exceeds opened (c :: text) (i + 1) ↔ Exceeds opened' text i := by
  have hcount : ∀ (d : Char) (n : Nat),
      ((c :: text).take (n + 1)).count d = [c].count d + (text.take n).count d := by
    intro d n
    rw [List.take_succ_cons, ← List.count_append, List.singleton_append]
  unfold Exceeds
  rw [List.getElem?_cons_succ, hcount, hcount]
  refine and_congr_right fun _ => ?_
  omega

theorem firstExcess_succ {i : Nat} (h : FirstExcess opened' text i) :
    FirstExcess opened (c :: text) (i + 1) := by
  refine ⟨(exceeds_succ hc).mpr h.1, fun j hj => ?_⟩
  cases j with
  | zero => exact not_exceeds_zero hc
  | succ j => exact fun he => h.2 j (Nat.lt_of_succ_lt_succ hj) ((exceeds_succ hc).mp he)

theorem not_exceeds_cons (h : ∀ j, ¬Exceeds opened' text j) (j : Nat) :
    ¬Exceeds opened (c :: text) j := by
  cases j with
  | zero => exact not_exceeds_zero hc
  | succ j => exact fun he => h j ((exceeds_succ hc).mp he)

end

/-- Where braces are paired, none of them closes more than is open. -/
theorem Paired.not_exceeds {opened : Nat} {text : List Char} (h : Paired '{' '}' opened text)
    (j : Nat) : ¬Exceeds opened text j := by
  rintro ⟨hj, hlt⟩
  have hnext : text.take (j + 1) = text.take j ++ ['}'] := by
    rw [List.take_add_one, hj]
    rfl
  have hle := h.1 (text.take (j + 1)) (List.take_prefix _ _)
  rw [hnext, List.count_append, List.count_append] at hle
  rw [hnext, List.count_append] at hlt
  have hnone : ['}'].count '{' = 0 := rfl
  omega

end Text

namespace Fragment

/-- What the braces of a text at a place make of splitting it. If they are paired, it is split.
Otherwise the fault stands at the first brace that closes more than is open, or, if there is
none, at the end. -/
def Decided (opened place : Nat) (text : List Char) :
    Except (Located Fault) (List Fragment) → Prop
  | .ok _ => Paired '{' '}' opened text
  | .error e =>
    (∃ i, e = .atChar .unopenedBrace (place + i) ∧ FirstExcess opened text i) ∨
      (e = .atChar .unclosedBrace (place + text.length) ∧ (∀ j, ¬Exceeds opened text j) ∧
        ¬Paired '{' '}' opened text)

theorem Decided.map {opened place : Nat} {text : List Char}
    {outcome : Except (Located Fault) (List Fragment)} (h : Decided opened place text outcome)
    (f : List Fragment → List Fragment) : Decided opened place text (outcome.map f) := by
  cases outcome with
  | error e => exact h
  | ok fragments => exact h

theorem Decided.cons {opened opened' place : Nat} {c : Char} {text : List Char}
    {outcome : Except (Located Fault) (List Fragment)}
    (hc : opened + [c].count '{' = opened' + [c].count '}')
    (h : Decided opened' (place + 1) text outcome) : Decided opened place (c :: text) outcome := by
  cases outcome with
  | ok fragments => exact (paired_cons hc).mpr h
  | error e =>
    rcases h with ⟨i, rfl, hi⟩ | ⟨rfl, hnone, hpaired⟩
    · exact Or.inl ⟨i + 1, by rw [Nat.add_assoc, Nat.add_comm 1], firstExcess_succ hc hi⟩
    · refine Or.inr ⟨?_, not_exceeds_cons hc hnone, fun hp => hpaired ((paired_cons hc).mp hp)⟩
      rw [List.length_cons, Nat.add_assoc, Nat.add_comm 1]

/-- The braces alone decide whether a source is split, and where the fault stands if it is
not. -/
theorem splitFrom_decided (start depth : Nat) (read text : List Char) :
    Decided depth (start + read.length) text (splitFrom start depth read text) := by
  induction text generalizing start depth read with
  | nil =>
    rw [splitFrom]
    split
    · next hd => exact paired_nil.mpr hd
    · next hd =>
      refine Or.inr ⟨rfl, fun j hj => ?_, mt paired_nil.mp hd⟩
      cases hj.1
  | cons c text ih =>
    have hcut : ∀ depth', Decided depth' (start + read.length + 1) text
        ((splitFrom (start + read.length + 1) depth' [] text).map
          (ofPiece read.reverse depth start ++ ·)) :=
      fun depth' => (ih (start + read.length + 1) depth' []).map _
    rw [splitFrom]
    split
    · next hc => exact (hcut depth).cons (by rw [hc]; rfl)
    split
    · next hc => exact (hcut (depth + 1)).cons (by rw [hc]; rfl)
    split
    · next hc =>
      split
      · next hd =>
        refine Or.inl ⟨0, rfl, ⟨hc ▸ rfl, ?_⟩, fun j hj => absurd hj (Nat.not_lt_zero j)⟩
        rw [hd, hc]
        exact Nat.zero_lt_one
      · next hd =>
        refine (hcut (depth - 1)).cons ?_
        rw [hc]
        exact (Nat.sub_add_cancel (Nat.pos_of_ne_zero hd)).symm
    · next hopen hclose =>
      refine (ih start depth (c :: read)).cons ?_
      rw [List.count_singleton, List.count_singleton]
      simp [hopen, hclose]

/-! ## Characters -/

def Holds (f : Fragment) (index : Nat) : Prop :=
  f.offset ≤ index ∧ index < f.offset + f.text.length

/-- The fragments of a source from an index on. They lie one behind the other with something
between them, each is as deep as the braces before it are open, and each character that is
neither blank nor a mark is in one of them. -/
structure Laid (source : List Char) (start : Nat) (fragments : List Fragment) : Prop where
  apart : fragments.Pairwise fun f g => f.offset + f.text.length < g.offset
  filled : ∀ f ∈ fragments, start ≤ f.offset ∧ f.text ≠ []
  depth_eq : ∀ f ∈ fragments,
    f.depth + (source.take f.offset).count '}' = (source.take f.offset).count '{'
  holds : ∀ i c, start ≤ i → source[i]? = some c → isBlank c = false → ¬IsMark c →
    ∃ f ∈ fragments, f.Holds i

/-- A piece becomes one fragment, which has all of the piece but the blanks at its ends, or
none if there is nothing else. -/
theorem ofPiece_cases (piece : List Char) (depth start : Nat) :
    (allBlank piece = true ∧ ofPiece piece depth start = []) ∨
    ∃ front f back, piece = front ++ (f.text ++ back) ∧ allBlank front = true ∧
      allBlank back = true ∧ f.text ≠ [] ∧ f.depth = depth ∧ f.offset = start + front.length ∧
      ofPiece piece depth start = [f] := by
  unfold ofPiece
  cases hb : allBlank piece with
  | true => exact Or.inl ⟨rfl, rfl⟩
  | false =>
    obtain ⟨back, hback, hpiece⟩ := takeWhile_append_trim piece
    exact Or.inr ⟨piece.takeWhile isBlank, ⟨trim piece, depth, start + leadingBlanks piece⟩, back,
      hpiece, List.all_takeWhile, hback, trim_ne_nil hb, rfl, rfl, rfl⟩

/-- Between two places of a text stand the characters of what lies there. -/
theorem mem_of_getElem?_between {before middle after : List Char} {i : Nat} {c : Char}
    (h : (before ++ (middle ++ after))[i]? = some c) (hl : before.length ≤ i)
    (hr : i < before.length + middle.length) : c ∈ middle := by
  rw [List.getElem?_append_right hl, List.getElem?_append_left (Nat.sub_lt_left_of_lt_add hl hr)] at h
  exact List.mem_of_getElem? h

/-- What becomes of a piece at its place: a fragment lies within it, as deep as the braces
before the piece are open, and holds what is not blank. -/
theorem laid_ofPiece (after : List Char) {before piece : List Char} {depth : Nat}
    (hpiece : ∀ c ∈ piece, ¬IsMark c) (hdepth : depth + before.count '}' = before.count '{') :
    (ofPiece piece depth before.length).length ≤ 1 ∧
    (∀ f ∈ ofPiece piece depth before.length, before.length ≤ f.offset ∧ f.text ≠ [] ∧
      f.offset + f.text.length ≤ before.length + piece.length ∧
      f.depth + ((before ++ (piece ++ after)).take f.offset).count '}' =
        ((before ++ (piece ++ after)).take f.offset).count '{') ∧
    ∀ i c, before.length ≤ i → i < before.length + piece.length →
      (before ++ (piece ++ after))[i]? = some c → isBlank c = false →
        ∃ f ∈ ofPiece piece depth before.length, f.Holds i := by
  rcases ofPiece_cases piece depth before.length with
    ⟨hblank, heq⟩ | ⟨front, f, back, rfl, hfront, hback, hne, hd, ho, heq⟩
  · rw [heq]
    refine ⟨Nat.zero_le _, fun f hf => absurd hf List.not_mem_nil, fun i c hl hr hc hnot => ?_⟩
    exact absurd rfl (ne_of_class (List.all_eq_true.mp hblank c (mem_of_getElem?_between hc hl hr)) hnot)
  · have hsource : before ++ (front ++ (f.text ++ back) ++ after) =
        before ++ front ++ (f.text ++ (back ++ after)) := by simp only [List.append_assoc]
    have hlen : (before ++ front).length = f.offset := by rw [List.length_append, ho]
    have hnone : ∀ c, IsMark c → front.count c = 0 := fun c hc =>
      List.count_eq_zero.mpr fun hm => hpiece c (List.mem_append_left _ hm) hc
    rw [heq]
    refine ⟨Nat.le_refl 1, fun g hg => ?_, fun i c hl hr hc hnot => ⟨f, List.mem_cons_self, ?_⟩⟩
    · cases List.mem_singleton.mp hg
      refine ⟨ho ▸ Nat.le_add_right _ _, hne, ?_, ?_⟩
      · rw [ho, List.length_append, List.length_append, ← Nat.add_assoc, ← Nat.add_assoc]
        exact Nat.le_add_right _ _
      · rw [hsource, List.take_left' hlen, List.count_append, List.count_append,
          hnone _ (Or.inr (Or.inl rfl)), hnone _ (Or.inr (Or.inr rfl)), hd]
        exact hdepth
    · have houtside : ∀ blanks : List Char, allBlank blanks = true → c ∉ blanks :=
        fun blanks hb hm => ne_of_class (List.all_eq_true.mp hb c hm) hnot rfl
      refine ⟨Nat.le_of_not_lt fun hlt => ?_, Nat.lt_of_not_le fun hle => ?_⟩
      · rw [hsource, List.append_assoc] at hc
        exact houtside front hfront (mem_of_getElem?_between hc hl (ho ▸ hlt))
      · have hback' : before ++ (front ++ (f.text ++ back) ++ after) =
            before ++ front ++ f.text ++ (back ++ after) := by simp only [List.append_assoc]
        rw [hback'] at hc
        refine houtside back hback (mem_of_getElem?_between hc ?_ ?_)
        · rwa [List.length_append, hlen]
        · rw [List.length_append, List.length_append] at hr
          rw [List.length_append, hlen, ho]
          omega

/-- A piece puts its fragment in front of those behind the mark that ends it. -/
theorem Laid.append {before piece after : List Char} {depth : Nat} {rest : List Fragment}
    (hpiece : ∀ c ∈ piece, ¬IsMark c) (hafter : ∀ c, after.head? = some c → IsMark c)
    (hdepth : depth + before.count '}' = before.count '{')
    (h : Laid (before ++ (piece ++ after)) (before.length + piece.length + 1) rest) :
    Laid (before ++ (piece ++ after)) before.length
      (ofPiece piece depth before.length ++ rest) := by
  obtain ⟨hone, hfirst, hholds⟩ := laid_ofPiece after hpiece hdepth
  refine ⟨List.pairwise_append.mpr ⟨?_, h.apart, fun f hf g hg => ?_⟩, fun f hf => ?_,
    fun f hf => ?_, fun i c hi hc hnot hmark => ?_⟩
  · match ofPiece piece depth before.length, hone with
    | [], _ => exact List.Pairwise.nil
    | [f], _ => exact List.pairwise_singleton _ f
  · exact Nat.lt_of_le_of_lt (hfirst f hf).2.2.1 (h.filled g hg).1
  · rcases List.mem_append.mp hf with hf | hf
    · exact ⟨(hfirst f hf).1, (hfirst f hf).2.1⟩
    · refine ⟨Nat.le_trans ?_ (h.filled f hf).1, (h.filled f hf).2⟩
      exact Nat.le_trans (Nat.le_add_right _ _) (Nat.le_succ _)
  · rcases List.mem_append.mp hf with hf | hf
    · exact (hfirst f hf).2.2.2
    · exact h.depth_eq f hf
  · rcases Nat.lt_trichotomy i (before.length + piece.length) with hlt | rfl | hgt
    · obtain ⟨f, hf, hf'⟩ := hholds i c hi hlt hc hnot
      exact ⟨f, List.mem_append_left _ hf, hf'⟩
    · rw [← List.append_assoc, ← List.length_append, List.getElem?_append_right (Nat.le_refl _),
        Nat.sub_self, ← List.head?_eq_getElem?] at hc
      exact absurd (hafter c hc) hmark
    · obtain ⟨f, hf, hf'⟩ := h.holds i c hgt hc hnot hmark
      exact ⟨f, List.mem_append_right _ hf, hf'⟩

theorem laid_nil {source : List Char} {start : Nat} (h : source.length ≤ start) :
    Laid source start [] where
  apart := List.Pairwise.nil
  filled := fun f hf => absurd hf List.not_mem_nil
  depth_eq := fun f hf => absurd hf List.not_mem_nil
  holds := by
    intro i c hi hc
    rw [List.getElem?_eq_none (Nat.le_trans h hi)] at hc
    cases hc

/-- The fragments that a pass finds from the start of a piece on lie as they should. -/
theorem laid_of_splitFrom {before read text : List Char} {depth : Nat} {fragments : List Fragment}
    (hr : ∀ c ∈ read, ¬IsMark c) (hdepth : depth + before.count '}' = before.count '{')
    (h : splitFrom before.length depth read text = .ok fragments) :
    Laid (before ++ (read.reverse ++ text)) before.length fragments := by
  have hpiece : ∀ c ∈ read.reverse, ¬IsMark c := fun c hc => hr c (List.mem_reverse.mp hc)
  induction text generalizing before read depth fragments with
  | nil =>
    rw [splitFrom] at h
    split at h
    · cases h
      rw [← List.append_nil (ofPiece read.reverse depth before.length)]
      refine Laid.append hpiece (fun _ hc => by cases hc) hdepth (laid_nil ?_)
      rw [List.append_nil, List.length_append]
      exact Nat.le_succ _
    · cases h
  | cons c text ih =>
    -- A mark ends the piece, and the pass goes on behind it with the depth that the mark leaves.
    have hcut : ∀ depth', IsMark c → depth + [c].count '{' = depth' + [c].count '}' →
        (splitFrom (before.length + read.length + 1) depth' [] text).map
          (ofPiece read.reverse depth before.length ++ ·) = .ok fragments →
        Laid (before ++ (read.reverse ++ c :: text)) before.length fragments := by
      intro depth' hmark hc hmap
      have hnext : before ++ (read.reverse ++ c :: text) = before ++ read.reverse ++ [c] ++ text := by
        simp
      have hlen : before.length + read.length + 1 = (before ++ read.reverse ++ [c]).length := by
        simp
        omega
      have hnone : ∀ d, IsMark d → read.reverse.count d = 0 := fun d hd =>
        List.count_eq_zero.mpr fun hm => hpiece d hm hd
      cases hrest : splitFrom (before.length + read.length + 1) depth' [] text with
      | error e =>
        rw [hrest] at hmap
        cases hmap
      | ok rest =>
        rw [hrest] at hmap
        cases hmap
        have hlaid : Laid (before ++ (read.reverse ++ c :: text))
            (before.length + read.length + 1) rest := by
          rw [hlen] at hrest ⊢
          rw [hnext]
          refine @ih _ [] depth' rest (fun d hd => absurd hd List.not_mem_nil) ?_ hrest
            (fun d hd => absurd hd List.not_mem_nil)
          rw [List.count_append, List.count_append, List.count_append, List.count_append,
            hnone _ (Or.inr (Or.inl rfl)), hnone _ (Or.inr (Or.inr rfl))]
          omega
        have hreverse : read.length = read.reverse.length := List.length_reverse.symm
        rw [hreverse] at hlaid
        refine Laid.append hpiece (fun d hd => ?_) hdepth hlaid
        cases hd
        exact hmark
    rw [splitFrom] at h
    split at h
    · next hc => exact hcut depth (Or.inl hc) (by rw [hc]; rfl) h
    split at h
    · next hc => exact hcut (depth + 1) (Or.inr (Or.inl hc)) (by rw [hc]; rfl) h
    split at h
    · next hc =>
      split at h
      · cases h
      · next hd =>
        refine hcut (depth - 1) (Or.inr (Or.inr hc)) ?_ h
        rw [hc]
        exact (Nat.sub_add_cancel (Nat.pos_of_ne_zero hd)).symm
    · next hsemicolon hopen hclose =>
      have hmark : ¬IsMark c := by
        rintro (hc | hc | hc)
        · exact hsemicolon hc
        · exact hopen hc
        · exact hclose hc
      have hread : ∀ d ∈ c :: read, ¬IsMark d := List.forall_mem_cons.mpr ⟨hmark, hr⟩
      have hlaid := ih hread hdepth h fun d hd => hread d (List.mem_reverse.mp hd)
      rwa [List.reverse_cons, List.append_assoc, List.singleton_append] at hlaid

/-- No character is in two fragments. -/
theorem Laid.eq_of_holds {source : List Char} {start : Nat} {fragments : List Fragment}
    (h : Laid source start fragments) {f g : Fragment} (hf : f ∈ fragments) (hg : g ∈ fragments)
    {i : Nat} (hfi : f.Holds i) (hgi : g.Holds i) : f = g := by
  have hends : ∀ {a b : Fragment}, a.Holds i → b.Holds i → ¬a.offset + a.text.length < b.offset :=
    fun ha hb hlt => Nat.lt_irrefl i (Nat.lt_trans ha.2 (Nat.lt_of_lt_of_le hlt hb.1))
  obtain ⟨a, ha, rfl⟩ := List.getElem_of_mem hf
  obtain ⟨b, hb, rfl⟩ := List.getElem_of_mem hg
  have happart := List.pairwise_iff_getElem.mp h.apart
  rcases Nat.lt_trichotomy a b with hlt | rfl | hlt
  · exact absurd (happart a b ha hb hlt) (hends hfi hgi)
  · rfl
  · exact absurd (happart b a hb ha hlt) (hends hgi hfi)

/-- A source is split exactly if its braces are paired. If they are not, the fault stands at
the first `}` that closes more than is open before it, or, if there is none, at the end of the
source. The fragments of a source that is split lie one behind the other. Each has some text,
without blanks at its ends and without marks, that stands in the source at its offset, and is as
deep as there are braces open before it. Each character of the source that is neither blank nor
a mark is in exactly one of them. -/
theorem split_exact (source : List Char) :
    ((∃ fragments, split source = .ok fragments) ↔ Paired '{' '}' 0 source) ∧
    (∀ e, split source = .error e →
      (∃ i, e = .atChar .unopenedBrace i ∧ FirstExcess 0 source i) ∨
        (e = .atChar .unclosedBrace source.length ∧ ∀ j, ¬Exceeds 0 source j)) ∧
    ∀ fragments, split source = .ok fragments →
      fragments.Pairwise (fun f g => f.offset + f.text.length < g.offset) ∧
      (∀ f ∈ fragments, f.text ≠ [] ∧
        (∀ c, f.text.head? = some c ∨ f.text.getLast? = some c → isBlank c = false) ∧
        (∀ c ∈ f.text, ¬IsMark c) ∧ StandsAt f.text f.offset source ∧
        f.depth + (source.take f.offset).count '}' = (source.take f.offset).count '{') ∧
      ∀ i c, source[i]? = some c → isBlank c = false → ¬IsMark c →
        ∃! f, f ∈ fragments ∧ f.Holds i := by
  have hdecided : Decided 0 0 source (split source) := splitFrom_decided 0 0 [] source
  refine ⟨⟨?_, fun hpaired => ?_⟩, fun e he => ?_, fun fragments h => ?_⟩
  · rintro ⟨fragments, h⟩
    rw [h] at hdecided
    exact hdecided
  · cases h : split source with
    | ok fragments => exact ⟨fragments, rfl⟩
    | error e =>
      rw [h] at hdecided
      rcases hdecided with ⟨i, _, hi, _⟩ | ⟨_, _, hnot⟩
      · exact absurd hi (hpaired.not_exceeds i)
      · exact absurd hpaired hnot
  · rw [he] at hdecided
    rcases hdecided with ⟨i, rfl, hi⟩ | ⟨rfl, hnone, _⟩
    · exact Or.inl ⟨i, by rw [Nat.zero_add], hi⟩
    · exact Or.inr ⟨by rw [Nat.zero_add], hnone⟩
  · have hlaid : Laid source 0 fragments :=
      @laid_of_splitFrom [] [] source 0 fragments (fun c hc => absurd hc List.not_mem_nil) rfl h
    refine ⟨hlaid.apart, fun f hf => ?_, fun i c hi hnot hmark => ?_⟩
    · have hat := statementAt_of_mem_split h f hf
      obtain ⟨_, piece, _, _, _, hmarks, _, htext, _⟩ := hat
      obtain ⟨back, _, hpiece⟩ := takeWhile_append_trim piece
      refine ⟨(hlaid.filled f hf).2, fun c hc => ?_, fun c hc => hmarks c ?_,
        (statementAt_of_mem_split h f hf).standsAt, hlaid.depth_eq f hf⟩
      · rw [htext] at hc
        rcases hc with hc | hc
        · exact head?_trim hc
        · exact getLast?_trim hc
      · rw [hpiece]
        exact List.mem_append_right _ (List.mem_append_left _ (htext ▸ hc))
    · obtain ⟨f, hf, hfi⟩ := hlaid.holds i c (Nat.zero_le i) hi hnot hmark
      exact ⟨f, ⟨hf, hfi⟩, fun g hg => hlaid.eq_of_holds hg.1 hf hg.2 hfi⟩

end Fragment

end DialogueScript
