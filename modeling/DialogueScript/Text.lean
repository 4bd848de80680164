/-!
# Characters and runs of text

The character classes of the script language and the ways a run of characters
is cut up. Text is a `List Char` here, so every offset counts characters.

* Names are ASCII: a letter or `_`, then letters, digits or `_`.
* Blanks are the characters of the Unicode property White_Space, so that a
  no-break space pasted from a document is skipped like any other blank.
-/

namespace DialogueScript.Text

/-! ## Character classes -/

/-- The Unicode property White_Space as ascending, inclusive ranges of code
points. -/
def blankRanges : List (Nat × Nat) :=
  [(0x09, 0x0D), (0x20, 0x20), (0x85, 0x85), (0xA0, 0xA0), (0x1680, 0x1680),
   (0x2000, 0x200A), (0x2028, 0x2029), (0x202F, 0x202F), (0x205F, 0x205F), (0x3000, 0x3000)]

def isBlank (c : Char) : Bool :=
  blankRanges.any fun range => range.1 ≤ c.toNat && c.toNat ≤ range.2

/-- White space has 25 characters. -/
example : (blankRanges.map fun range => range.2 + 1 - range.1).sum = 25 := by decide

def isNameStart (c : Char) : Bool :=
  c.isAlpha || c = '_'

/-- Whether a character can stand in a name after its first character. -/
def isNamePart (c : Char) : Bool :=
  c.isAlphanum || c = '_'

/-! ## Names and keywords -/

/-- Cuts the longest name off the front of a text, if it begins with one. -/
def leadingName? : List Char → Option (List Char × List Char)
  | [] => none
  | c :: rest =>
    if isNameStart c then some (c :: rest.takeWhile isNamePart, rest.dropWhile isNamePart)
    else none

/-- A leading name has a first character, then only name characters, and none of
these follows it. -/
theorem leadingName?_eq_some {text name rest : List Char}
    (h : leadingName? text = some (name, rest)) :
    text = name ++ rest ∧ (∃ c more, name = c :: more ∧ isNameStart c ∧ more.all isNamePart) ∧
      rest.head?.all (!isNamePart ·) := by
  cases text with
  | nil => simp [leadingName?] at h
  | cons c cs =>
    rw [leadingName?] at h
    split at h
    next hc =>
      simp only [Option.some.injEq, Prod.mk.injEq] at h
      obtain ⟨rfl, rfl⟩ := h
      refine ⟨by simp, ⟨c, _, rfl, hc, by simp⟩, ?_⟩
      have stop := List.head?_dropWhile_not isNamePart cs
      cases hd : cs.dropWhile isNamePart with
      | nil => rfl
      | cons d ds => simpa [hd] using stop
    next => contradiction

/-- Whether a text begins with a keyword that no further name character
continues: `if(` begins with `if`, and `iffy` does not. -/
def beginsWithKeyword (keyword text : List Char) : Bool :=
  keyword.isPrefixOf text && !(text.drop keyword.length).head?.any isNamePart

/-! ## Blanks around a text -/

def leadingBlanks (text : List Char) : Nat :=
  (text.takeWhile isBlank).length

def trimStart (text : List Char) : List Char :=
  text.dropWhile isBlank

def trim (text : List Char) : List Char :=
  (trimStart (trimStart text).reverse).reverse

def allBlank (text : List Char) : Bool :=
  text.all isBlank

/-- The maximal runs of non-blank characters of a text, in order. -/
def words (text : List Char) : List (List Char) :=
  (text.splitOnP isBlank).filter fun word => !word.isEmpty

/-! ## Cuts at a mark -/

/-- What stands before and after the first occurrence of a mark. -/
def cutFirst? (mark : Char) : List Char → Option (List Char × List Char)
  | [] => none
  | c :: rest =>
    if c = mark then some ([], rest)
    else (cutFirst? mark rest).map fun (before, after) => (c :: before, after)

/-- A cut at the first mark leaves no mark before it. -/
theorem cutFirst?_eq_some_iff {mark : Char} {text before after : List Char} :
    cutFirst? mark text = some (before, after) ↔ text = before ++ mark :: after ∧ mark ∉ before := by
  induction text generalizing before with
  | nil => simp [cutFirst?]
  | cons c rest ih =>
    rw [cutFirst?]
    split
    next h =>
      subst h
      cases before with
      | nil => simp [eq_comm]
      | cons b bs => simp; rintro rfl _ h; exact absurd rfl h
    next h =>
      cases before with
      | nil => simp [h]
      | cons b bs => simp [Option.map_eq_some_iff, ih]; grind

theorem cutFirst?_eq_none_iff {mark : Char} {text : List Char} :
    cutFirst? mark text = none ↔ mark ∉ text := by
  induction text with
  | nil => simp [cutFirst?]
  | cons c rest ih =>
    rw [cutFirst?]
    split
    next h => simp [h]
    next h => simp [ih, Ne.symm h]

/-- What stands before and after the last occurrence of a mark. -/
def cutLast? (mark : Char) : List Char → Option (List Char × List Char)
  | [] => none
  | c :: rest =>
    match cutLast? mark rest with
    | some (before, after) => some (c :: before, after)
    | none => if c = mark then some ([], rest) else none

theorem cutLast?_eq_none_iff {mark : Char} {text : List Char} :
    cutLast? mark text = none ↔ mark ∉ text := by
  induction text with
  | nil => simp [cutLast?]
  | cons c rest ih => rw [cutLast?]; split <;> grind

/-- A cut at the last mark leaves no mark behind it. -/
theorem cutLast?_eq_some_iff {mark : Char} {text before after : List Char} :
    cutLast? mark text = some (before, after) ↔ text = before ++ mark :: after ∧ mark ∉ after := by
  induction text generalizing before with
  | nil => simp [cutLast?]
  | cons c rest ih =>
    rw [cutLast?]
    cases h : cutLast? mark rest with
    | none =>
      have := cutLast?_eq_none_iff.1 h
      cases before <;> grind
    | some found =>
      have : mark ∈ rest := Decidable.byContradiction fun hn => by
        rw [cutLast?_eq_none_iff.2 hn] at h; contradiction
      cases before <;> grind

end DialogueScript.Text
