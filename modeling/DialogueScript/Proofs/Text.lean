import Mathlib
import DialogueScript.Text

/-!
# Characters, blanks and words

What the classes of characters have to do with each other, and how the ways of cutting
up a text behave where texts are joined.
-/

namespace DialogueScript.Text

/-! ## Characters -/

theorem ne_of_class {p : Char → Bool} {c d : Char} (hc : p c = true) (hd : p d = false) : c ≠ d := by
  rintro rfl
  rw [hc] at hd
  exact nomatch hd

theorem not_mem_of_all {p : Char → Bool} {text : List Char} (h : text.all p = true) {c : Char}
    (hc : p c = false) : c ∉ text :=
  fun hm => ne_of_class (List.all_eq_true.mp h c hm) hc rfl

theorem isBlank_iff {c : Char} :
    isBlank c = true ↔ ∃ range ∈ blankRanges, range.1 ≤ c.toNat ∧ c.toNat ≤ range.2 := by
  unfold isBlank
  simp only [List.any_eq_true, Bool.and_eq_true, decide_eq_true_eq]

theorem isDigit_iff {c : Char} : c.isDigit = true ↔ 48 ≤ c.toNat ∧ c.toNat ≤ 57 := by
  simp only [Char.isDigit, UInt32.le_iff_toNat_le, decide_eq_true_eq, Bool.and_eq_true, ge_iff_le]
  rfl

theorem isNameStart_iff {c : Char} : isNameStart c = true ↔
    (65 ≤ c.toNat ∧ c.toNat ≤ 90) ∨ (97 ≤ c.toNat ∧ c.toNat ≤ 122) ∨ c.toNat = 95 := by
  have h : c = '_' ↔ c.toNat = 95 := by
    rw [← Char.toNat_inj]
    rfl
  simp only [isNameStart, Char.isAlpha, Char.isUpper, Char.isLower, UInt32.le_iff_toNat_le,
    Bool.or_eq_true, decide_eq_true_eq, Bool.and_eq_true, h, ge_iff_le, or_assoc]
  rfl

theorem isNamePart_iff {c : Char} :
    isNamePart c = true ↔ isNameStart c = true ∨ c.isDigit = true := by
  unfold isNamePart isNameStart Char.isAlphanum
  rw [Bool.or_right_comm, Bool.or_eq_true]

theorem isBlank_of_isNamePart {c : Char} (h : isNamePart c = true) : isBlank c = false := by
  rw [Bool.eq_false_iff]
  intro hb
  obtain ⟨range, hr, hlow, hhigh⟩ := isBlank_iff.mp hb
  have hout : ∀ range ∈ blankRanges, range.2 < 48 ∨ 122 < range.1 := by decide
  rw [isNamePart_iff, isNameStart_iff, isDigit_iff] at h
  rcases hout range hr with hlt | hlt
  · omega
  · omega

theorem isNamePart_of_isBlank {c : Char} (h : isBlank c = true) : isNamePart c = false := by
  rw [Bool.eq_false_iff]
  intro hn
  rw [isBlank_of_isNamePart hn] at h
  exact nomatch h

theorem isDigit_of_isNameStart {c : Char} (h : isNameStart c = true) : c.isDigit = false := by
  rw [Bool.eq_false_iff]
  intro hd
  rw [isNameStart_iff] at h
  rw [isDigit_iff] at hd
  omega

/-- The text continues no name and no numeral. -/
def Ends (text : List Char) : Prop := ∀ c, text.head? = some c → isNamePart c = false ∧ c ≠ '.'

theorem ends_nil : Ends [] := fun _ h => nomatch h

theorem ends_append {gap rest : List Char} (hg : allBlank gap = true) (h : Ends rest) :
    Ends (gap ++ rest) := by
  cases gap with
  | nil => exact h
  | cons c gap =>
    have hc : isBlank c = true := List.all_eq_true.mp hg c List.mem_cons_self
    intro d hd
    cases hd
    exact ⟨isNamePart_of_isBlank hc, ne_of_class hc (by decide)⟩

def NameStops (text : List Char) : Prop := ∀ c, text.head? = some c → isNamePart c = false

theorem Ends.nameStops {text : List Char} (h : Ends text) : NameStops text := fun c hc => (h c hc).1

theorem nameStops_dropWhile (text : List Char) : NameStops (text.dropWhile isNamePart) := by
  intro c hc
  have hstop := List.head?_dropWhile_not isNamePart text
  rw [hc] at hstop
  exact hstop

theorem NameStops.takeWhile_append {name rest : List Char} (h : NameStops rest)
    (hn : name.all isNamePart = true) : (name ++ rest).takeWhile isNamePart = name := by
  rw [List.takeWhile_append_of_pos (List.all_eq_true.mp hn)]
  cases rest with
  | nil => exact List.append_nil name
  | cons c rest => rw [List.takeWhile_cons, h c rfl, if_neg Bool.false_ne_true, List.append_nil]

theorem takeWhile_isNamePart {name rest : List Char} (hn : name.all isNamePart = true)
    (h : Ends rest) : (name ++ rest).takeWhile isNamePart = name :=
  h.nameStops.takeWhile_append hn

/-- The text is a name: a letter or `_`, and then letters, digits or `_`. -/
def IsName (text : List Char) : Prop :=
  ∃ c more, text = c :: more ∧ isNameStart c = true ∧ more.all isNamePart = true

theorem IsName.all_isNamePart {name : List Char} (h : IsName name) :
    name.all isNamePart = true := by
  obtain ⟨c, more, rfl, hstart, hmore⟩ := h
  rw [List.all_cons, isNamePart_iff.mpr (Or.inl hstart), hmore]
  rfl

theorem IsName.leadingName?_append {name rest : List Char} (h : IsName name) (hr : Ends rest) :
    leadingName? (name ++ rest) = some (name, rest) := by
  obtain ⟨c, more, rfl, hstart, hmore⟩ := h
  have htake := takeWhile_isNamePart hmore hr
  have hdrop : (more ++ rest).dropWhile isNamePart = rest := by
    have hall := List.takeWhile_append_dropWhile (p := isNamePart) (l := more ++ rest)
    rw [htake] at hall
    exact List.append_cancel_left hall
  rw [List.cons_append, leadingName?, if_pos hstart, htake, hdrop]

/-- Behind a name and blanks stands no character of another kind. -/
theorem IsName.not_mem_append {name blanks : List Char} (h : IsName name)
    (hb : allBlank blanks = true) {c : Char} (hp : isNamePart c = false)
    (hc : isBlank c = false) : c ∉ name ++ blanks := by
  intro hm
  rcases List.mem_append.mp hm with hm | hm
  · exact not_mem_of_all h.all_isNamePart hp hm
  · exact not_mem_of_all hb hc hm

/-- A text begins with a keyword if the keyword is all of its leading name
characters. -/
theorem beginsWithKeyword_iff {keyword text : List Char} (hk : keyword.all isNamePart = true) :
    beginsWithKeyword keyword text = true ↔ text.takeWhile isNamePart = keyword := by
  unfold beginsWithKeyword
  rw [Bool.and_eq_true, List.isPrefixOf_iff_prefix, Bool.not_eq_true']
  constructor
  · rintro ⟨⟨rest, rfl⟩, hstop⟩
    rw [List.drop_left] at hstop
    rw [List.takeWhile_append_of_pos (List.all_eq_true.mp hk)]
    cases rest with
    | nil => exact List.append_nil keyword
    | cons c rest =>
      have hc : isNamePart c = false := hstop
      rw [List.takeWhile_cons, hc, if_neg Bool.false_ne_true, List.append_nil]
  · rintro rfl
    refine ⟨List.takeWhile_prefix _, ?_⟩
    have hcut : text.drop (text.takeWhile isNamePart).length = text.dropWhile isNamePart := by
      have hall := List.takeWhile_append_dropWhile (p := isNamePart) (l := text)
      calc text.drop (text.takeWhile isNamePart).length
        _ = (text.takeWhile isNamePart ++ text.dropWhile isNamePart).drop
            (text.takeWhile isNamePart).length := by rw [hall]
        _ = text.dropWhile isNamePart := List.drop_left
    have hstop := List.head?_dropWhile_not isNamePart text
    rw [hcut]
    cases hd : (text.dropWhile isNamePart).head? with
    | none => rfl
    | some c =>
      rw [hd] at hstop
      simpa using hstop

/-- A keyword is not read at the front of other name characters. -/
theorem beginsWithKeyword_of_ne {keyword text name : List Char}
    (hk : keyword.all isNamePart = true) (ht : text.takeWhile isNamePart = name)
    (hne : name ≠ keyword) : beginsWithKeyword keyword text = false := by
  rw [Bool.eq_false_iff]
  intro hb
  exact hne (ht.symm.trans ((beginsWithKeyword_iff hk).mp hb))

/-! ## Blanks -/

/-- What stops at blanks sees no blanks behind a text. -/
theorem takeWhile_append_blanks {p : Char → Bool} (hp : ∀ c, isBlank c = true → p c = false)
    {after : List Char} (ha : allBlank after = true) (text : List Char) :
    (text ++ after).takeWhile p = text.takeWhile p := by
  have hnone : after.takeWhile p = [] := by
    cases after with
    | nil => rfl
    | cons c after =>
      have hc : isBlank c = true := List.all_eq_true.mp ha c List.mem_cons_self
      rw [List.takeWhile_cons, hp c hc, if_neg Bool.false_ne_true]
  rw [List.takeWhile_append, hnone, List.append_nil]
  split
  · next hall => exact ((List.takeWhile_prefix p).eq_of_length hall).symm
  · rfl

theorem beginsWithKeyword_append_blanks {keyword after : List Char}
    (hk : keyword.all isNamePart = true) (ha : allBlank after = true) (text : List Char) :
    beginsWithKeyword keyword (text ++ after) = beginsWithKeyword keyword text := by
  rw [Bool.eq_iff_iff, beginsWithKeyword_iff hk, beginsWithKeyword_iff hk,
    takeWhile_append_blanks (fun _ => isNamePart_of_isBlank) ha]

def trimEnd (text : List Char) : List Char := (trimStart text.reverse).reverse

theorem trimStart_append {gap : List Char} (hg : allBlank gap = true) {c : Char}
    (hc : isBlank c = false) (rest : List Char) : trimStart (gap ++ c :: rest) = c :: rest := by
  unfold trimStart
  rw [List.dropWhile_append_of_pos (List.all_eq_true.mp hg), List.dropWhile_cons, hc,
    if_neg Bool.false_ne_true]

theorem leadingBlanks_append {gap : List Char} (hg : allBlank gap = true) {c : Char}
    (hc : isBlank c = false) (rest : List Char) : leadingBlanks (gap ++ c :: rest) = gap.length := by
  unfold leadingBlanks
  rw [List.takeWhile_append_of_pos (List.all_eq_true.mp hg), List.takeWhile_cons, hc,
    if_neg Bool.false_ne_true, List.append_nil]

theorem trimEnd_append_cons (text : List Char) {c : Char} (hc : isBlank c = false)
    (rest : List Char) : trimEnd (text ++ c :: rest) = text ++ c :: trimEnd rest := by
  have hstop : (c :: text.reverse).dropWhile isBlank = c :: text.reverse := by
    rw [List.dropWhile_cons, hc, if_neg Bool.false_ne_true]
  unfold trimEnd trimStart
  rw [List.reverse_append, List.reverse_cons, List.append_assoc, List.singleton_append,
    List.dropWhile_append, hstop]
  split
  · next hempty =>
    rw [List.isEmpty_iff] at hempty
    rw [hempty, List.reverse_cons, List.reverse_reverse, List.reverse_nil]
  · rw [List.reverse_append, List.reverse_cons, List.reverse_reverse, List.append_assoc,
      List.singleton_append]

theorem trimEnd_blanks {gap : List Char} (hg : allBlank gap = true) : trimEnd gap = [] := by
  have hall : ∀ c ∈ gap.reverse, isBlank c = true := fun c hc =>
    List.all_eq_true.mp hg c (List.mem_reverse.mp hc)
  have hnil : (gap.reverse ++ []).dropWhile isBlank = [].dropWhile isBlank :=
    List.dropWhile_append_of_pos hall
  rw [List.append_nil, List.dropWhile_nil] at hnil
  unfold trimEnd trimStart
  rw [hnil, List.reverse_nil]

/-- Only blanks are cut off the end. -/
theorem trimEnd_append_blanks (text : List Char) :
    ∃ after, allBlank after = true ∧ trimEnd text ++ after = text := by
  refine ⟨(text.reverse.takeWhile isBlank).reverse, ?_, ?_⟩
  · refine List.all_eq_true.mpr fun c hc => ?_
    exact List.all_eq_true.mp List.all_takeWhile c (List.mem_reverse.mp hc)
  · unfold trimEnd trimStart
    rw [← List.reverse_append, List.takeWhile_append_dropWhile, List.reverse_reverse]

/-- Only blanks are cut off on both sides. -/
theorem takeWhile_append_trim (text : List Char) :
    ∃ after, allBlank after = true ∧ text = text.takeWhile isBlank ++ (trim text ++ after) := by
  obtain ⟨after, hafter, htext⟩ := trimEnd_append_blanks (trimStart text)
  refine ⟨after, hafter, ?_⟩
  show text = text.takeWhile isBlank ++ (trimEnd (trimStart text) ++ after)
  rw [htext, trimStart, List.takeWhile_append_dropWhile]

theorem trim_eq_self {text : List Char} (h : ∀ c ∈ text, isBlank c = false) : trim text = text := by
  obtain ⟨after, hblank, htext⟩ := takeWhile_append_trim text
  have hbefore : text.takeWhile isBlank = [] := by
    cases text with
    | nil => rfl
    | cons c more => exact List.takeWhile_cons_of_neg (Bool.eq_false_iff.mp (h c List.mem_cons_self))
  have hafter : after = [] := by
    refine List.eq_nil_iff_forall_not_mem.mpr fun c hc => ?_
    have hmem : c ∈ text := by
      rw [htext]
      exact List.mem_append_right _ (List.mem_append_right _ hc)
    exact absurd (List.all_eq_true.mp hblank c hc) (Bool.eq_false_iff.mp (h c hmem))
  rw [hbefore, hafter, List.append_nil, List.nil_append] at htext
  exact htext.symm

/-! ## Places -/

def StandsAt (text : List Char) (offset : Nat) (source : List Char) : Prop :=
  ∃ before after, source = before ++ (text ++ after) ∧ before.length = offset

theorem StandsAt.trans {text middle source : List Char} {k offset : Nat} (h : StandsAt text k middle)
    (h' : StandsAt middle offset source) : StandsAt text (offset + k) source := by
  obtain ⟨before, after, rfl, rfl⟩ := h
  obtain ⟨before', after', rfl, rfl⟩ := h'
  refine ⟨before' ++ before, after ++ after', ?_, List.length_append⟩
  simp only [List.append_assoc]

theorem StandsAt.le_length {text source : List Char} {offset : Nat} (h : StandsAt text offset source) :
    offset + text.length ≤ source.length := by
  obtain ⟨before, after, rfl, rfl⟩ := h
  rw [List.length_append, List.length_append]
  omega

theorem StandsAt.slice_eq {text source : List Char} {offset : Nat} (h : StandsAt text offset source) :
    (source.drop offset).take text.length = text := by
  obtain ⟨before, after, rfl, rfl⟩ := h
  rw [List.drop_left, List.take_left]

theorem standsAt_trim (text : List Char) : StandsAt (trim text) (leadingBlanks text) text := by
  obtain ⟨after, _, htext⟩ := takeWhile_append_trim text
  exact ⟨text.takeWhile isBlank, after, htext, rfl⟩

/-! ## Lists from a place on -/

theorem drop_add_length {α : Type} {list front back : List α} {start : Nat}
    (h : list.drop start = front ++ back) : list.drop (start + front.length) = back := by
  rw [← List.drop_drop, h, List.drop_left]

theorem drop_add_one {α : Type} {list back : List α} {a : α} {start : Nat}
    (h : list.drop start = a :: back) : list.drop (start + 1) = back := by
  rw [← List.drop_drop, h, List.drop_one, List.tail_cons]

theorem getElem?_of_drop {α : Type} {list back : List α} {start : Nat}
    (h : list.drop start = back) : list[start]? = back.head? := by
  rw [← h, List.head?_drop]

/-! ## Pairs of marks -/

/-- With a number of left marks open before it, no beginning of the text closes more of them
than are open, and the text closes all. -/
def Paired (left right : Char) (opened : Nat) (text : List Char) : Prop :=
  (∀ front, front <+: text → front.count right ≤ opened + front.count left) ∧
    opened + text.count left = text.count right

section

variable {left right : Char} {opened : Nat} {text : List Char}

theorem paired_nil : Paired left right opened [] ↔ opened = 0 := by
  simp [Paired]

/-- One character more in front, which leaves a number of left marks open. The beginnings of
the text get the same character in front, and there is one more, the empty one. -/
theorem paired_cons {opened' : Nat} {c : Char}
    (hc : opened + [c].count left = opened' + [c].count right) :
    Paired left right opened (c :: text) ↔ Paired left right opened' text := by
  have hcount : ∀ (d : Char) (more : List Char), (c :: more).count d = [c].count d + more.count d :=
    fun d more => by rw [← List.count_append, List.singleton_append]
  unfold Paired
  refine and_congr ⟨fun h front hf => ?_, fun h front hf => ?_⟩ ?_
  · have := h _ (List.cons_prefix_cons.mpr ⟨rfl, hf⟩)
    rw [hcount left, hcount right] at this
    omega
  · rcases List.prefix_cons_iff.mp hf with rfl | ⟨rest, rfl, hrest⟩
    · exact Nat.zero_le _
    · have := h rest hrest
      rw [hcount left, hcount right]
      omega
  · rw [hcount left, hcount right]
    omega

theorem not_paired_right (hne : left ≠ right) : ¬Paired left right 0 (right :: text) := by
  intro h
  have := h.1 [right] (List.cons_prefix_cons.mpr ⟨rfl, List.nil_prefix⟩)
  simp [hne.symm] at this

end

/-! ## Words -/

theorem words_blanks_append {gap : List Char} (hg : allBlank gap = true) (rest : List Char) :
    words (gap ++ rest) = words rest := by
  induction gap with
  | nil => rfl
  | cons c gap ih =>
    have hall := List.all_cons.symm.trans hg
    rw [Bool.and_eq_true] at hall
    have htail := ih hall.2
    unfold words at htail ⊢
    rw [List.cons_append, List.splitOnP_cons_eq_if_modifyHead, if_pos hall.1, List.filter_cons,
      List.isEmpty_nil]
    exact htail

theorem words_blanks {gap : List Char} (hg : allBlank gap = true) : words gap = [] := by
  have := words_blanks_append hg []
  rwa [List.append_nil] at this

/-- A word in front of blanks comes first. -/
theorem words_append {word gap rest : List Char} (hne : word ≠ [])
    (hw : word.all (fun c => !isBlank c) = true) (hg : allBlank gap = true)
    (hr : gap = [] → rest = []) : words (word ++ (gap ++ rest)) = word :: words (gap ++ rest) := by
  have hno : ∀ c ∈ word, isBlank c = false := fun c hc => by
    simpa using List.all_eq_true.mp hw c hc
  have hkeep : (!word.isEmpty) = true := by
    cases word with
    | nil => exact absurd rfl hne
    | cons c word => rfl
  unfold words
  cases gap with
  | nil =>
    rw [hr rfl, List.append_nil, List.append_nil, List.splitOnP_eq_singleton hno, List.filter_cons,
      if_pos hkeep]
    rfl
  | cons c more =>
    have hc : isBlank c = true := List.all_eq_true.mp hg c List.mem_cons_self
    rw [List.cons_append, List.splitOnP_append_cons_of_forall_mem hno c hc, List.filter_cons,
      if_pos hkeep, List.splitOnP_cons_eq_if_modifyHead, if_pos hc, List.filter_cons]
    rfl

end DialogueScript.Text
