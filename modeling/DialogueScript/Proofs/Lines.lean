import Mathlib
import DialogueScript.Position

/-!
# Lines and offsets

An offset becomes a position by counting: the line feeds passed so far, and the characters
since the last of them. Here the count is measured against the lines of the source, and an
offset and its position turn out to say the same.

What carries the proof is that a position stands inside its line (`Position.Stands`). One
more character keeps that (`stands_succ`), because the character at a place of a line is a
line feed only at the end of that line (`getElem?_lineStart`).

Main statement: `Position.ofOffset_lossless`.
-/

namespace DialogueScript.Position

/-! ## Lines -/

/-- The lines of a source: what stands before, between and behind its line feeds. -/
def lines (source : List Char) : List (List Char) := source.splitOn '\n'

/-- The offset at which a line begins: each line before it takes its length and a line feed. -/
def lineStart (source : List Char) (line : Nat) : Nat :=
  (((lines source).take line).map fun text => text.length + 1).sum

/-- The offset that a position stands for, if line and character are known. -/
def offset? (source : List Char) (p : Position) : Option Nat := do
  let line ← p.line
  let char ← p.char
  return lineStart source line + char

/-- A position stands before another, in an earlier line or earlier in the same one. -/
def Before (p q : Position) : Prop :=
  ∃ line char line' char', p.line = some line ∧ p.char = some char ∧ q.line = some line' ∧
    q.char = some char' ∧ (line < line' ∨ line = line' ∧ char < char')

theorem lines_feed (source : List Char) : lines ('\n' :: source) = [] :: lines source :=
  List.splitOn_cons_eq_if_modifyHead '\n' source

/-- A character that is no line feed goes to the front of the first line. -/
theorem exists_lines_cons {c : Char} (hc : c ≠ '\n') (source : List Char) :
    ∃ first more, lines source = first :: more ∧ lines (c :: source) = (c :: first) :: more := by
  obtain ⟨first, more, hlines⟩ := List.exists_cons_of_ne_nil (List.splitOn_ne_nil '\n' source)
  refine ⟨first, more, hlines, ?_⟩
  rw [lines, List.splitOn_cons_eq_if_modifyHead, if_neg (by simpa using hc), hlines]
  rfl

theorem lineStart_zero (source : List Char) : lineStart source 0 = 0 := rfl

theorem lineStart_succ {source text : List Char} {line : Nat}
    (h : (lines source)[line]? = some text) :
    lineStart source (line + 1) = lineStart source line + (text.length + 1) := by
  rw [lineStart, List.take_add_one, h]
  simp [lineStart]

theorem lineStart_mono (source : List Char) {a b : Nat} (h : a ≤ b) :
    lineStart source a ≤ lineStart source b := by
  obtain ⟨n, rfl⟩ := Nat.exists_eq_add_of_le h
  rw [lineStart, lineStart, List.take_add, List.map_append, List.sum_append]
  exact Nat.le_add_right _ _

theorem lineStart_feed_succ (source : List Char) (line : Nat) :
    lineStart ('\n' :: source) (line + 1) = lineStart source line + 1 := by
  rw [lineStart, lines_feed, List.take_succ_cons, List.map_cons, List.sum_cons, lineStart]
  exact Nat.add_comm _ _

theorem lineStart_cons_succ {c : Char} (hc : c ≠ '\n') (source : List Char) (line : Nat) :
    lineStart (c :: source) (line + 1) = lineStart source (line + 1) + 1 := by
  obtain ⟨first, more, hlines, hcons⟩ := exists_lines_cons hc source
  rw [lineStart, lineStart, hlines, hcons]
  simp only [List.take_succ_cons, List.map_cons, List.sum_cons, List.length_cons]
  omega

/-- At a place of a line the source has a character that is no line feed. Behind the line it
has a line feed and a next line, or it ends. -/
theorem getElem?_lineStart {source text : List Char} {line : Nat}
    (h : (lines source)[line]? = some text) :
    (∀ char < text.length, ∃ c, source[lineStart source line + char]? = some c ∧ c ≠ '\n') ∧
      (source[lineStart source line + text.length]? = some '\n' ∧
          line + 1 < (lines source).length ∨
        source[lineStart source line + text.length]? = none) := by
  induction source generalizing line text with
  | nil =>
    cases line with
    | zero =>
      cases h
      exact ⟨fun char hchar => absurd hchar (Nat.not_lt_zero _), Or.inr rfl⟩
    | succ line => exact nomatch h
  | cons d source ih =>
    by_cases hd : d = '\n'
    · subst hd
      rw [lines_feed] at h ⊢
      cases line with
      | zero =>
        cases h
        refine ⟨fun char hchar => absurd hchar (Nat.not_lt_zero _), Or.inl ⟨rfl, ?_⟩⟩
        exact Nat.succ_lt_succ (List.length_pos_iff.mpr (List.splitOn_ne_nil '\n' source))
      | succ line =>
        simp only [lineStart_feed_succ, Nat.add_right_comm _ 1, List.getElem?_cons_succ,
          List.length_cons, Nat.add_lt_add_iff_right]
        exact ih h
    · obtain ⟨first, more, hlines, hcons⟩ := exists_lines_cons hd source
      cases line with
      | zero =>
        rw [hcons] at h
        cases h
        have hfirst : (lines source)[0]? = some first := by
          rw [hlines]
          rfl
        obtain ⟨hinside, hbehind⟩ := ih hfirst
        simp only [lineStart_zero, Nat.zero_add] at hinside hbehind ⊢
        refine ⟨fun char hchar => ?_, ?_⟩
        · cases char with
          | zero => exact ⟨d, rfl, hd⟩
          | succ char => exact hinside char (Nat.lt_of_succ_lt_succ hchar)
        · rwa [hcons, List.length_cons, List.getElem?_cons_succ, List.length_cons,
            ← List.length_cons, ← hlines]
      | succ line =>
        have hlen : (lines (d :: source)).length = (lines source).length := by
          rw [hcons, hlines, List.length_cons, List.length_cons]
        rw [hcons, List.getElem?_cons_succ] at h
        simp only [lineStart_cons_succ hd, Nat.add_right_comm _ 1, List.getElem?_cons_succ, hlen]
        exact ih (by rw [hlines]; exact h)

/-! ## Counting -/

/-- A line and a place in it that together make up an offset. -/
def Stands (source : List Char) (line char offset : Nat) : Prop :=
  ∃ text, (lines source)[line]? = some text ∧ char ≤ text.length ∧
    lineStart source line + char = offset

def lineAt (source : List Char) (offset : Nat) : Nat := (source.take offset).count '\n'

def charAt (source : List Char) (offset : Nat) : Nat :=
  ((source.take offset).reverse.takeWhile (· ≠ '\n')).length

theorem ofOffset_eq (source : List Char) (offset : Nat) (node : Option Nat) :
    ofOffset source offset node = ⟨node, some (lineAt source offset), some (charAt source offset)⟩ :=
  rfl

section

variable {source : List Char} {offset : Nat}

theorem counts_feed (h : source[offset]? = some '\n') :
    lineAt source (offset + 1) = lineAt source offset + 1 ∧ charAt source (offset + 1) = 0 := by
  rw [lineAt, charAt, List.take_add_one, h]
  simp [lineAt]

theorem counts_other {c : Char} (h : source[offset]? = some c) (hc : c ≠ '\n') :
    lineAt source (offset + 1) = lineAt source offset ∧
      charAt source (offset + 1) = charAt source offset + 1 := by
  rw [lineAt, charAt, List.take_add_one, h]
  simp [lineAt, charAt, hc]

/-- One more character leads from a place of the source to the next. -/
theorem stands_succ {c : Char} (h : source[offset]? = some c)
    (hs : Stands source (lineAt source offset) (charAt source offset) offset) :
    Stands source (lineAt source (offset + 1)) (charAt source (offset + 1)) (offset + 1) := by
  obtain ⟨text, htext, hle, hsum⟩ := hs
  obtain ⟨hinside, hbehind⟩ := getElem?_lineStart htext
  rcases Nat.lt_or_eq_of_le hle with hlt | hend
  · obtain ⟨d, hd, hne⟩ := hinside _ hlt
    rw [hsum, h] at hd
    cases hd
    obtain ⟨hline, hchar⟩ := counts_other h hne
    rw [hline, hchar]
    exact ⟨text, htext, hlt, by omega⟩
  · rw [← hend, hsum, h] at hbehind
    obtain ⟨hfeed, hmore⟩ := hbehind.resolve_right (Option.some_ne_none c)
    cases hfeed
    obtain ⟨hline, hchar⟩ := counts_feed h
    rw [hline, hchar]
    refine ⟨_, List.getElem?_eq_getElem hmore, Nat.zero_le _, ?_⟩
    rw [lineStart_succ htext]
    omega

theorem stands_counts (h : offset ≤ source.length) :
    Stands source (lineAt source offset) (charAt source offset) offset := by
  induction offset with
  | zero =>
    obtain ⟨first, more, hlines⟩ := List.exists_cons_of_ne_nil (List.splitOn_ne_nil '\n' source)
    refine ⟨first, ?_, Nat.zero_le _, rfl⟩
    rw [lineAt, List.take_zero, lines, hlines]
    rfl
  | succ offset ih =>
    exact stands_succ (List.getElem?_eq_getElem h) (ih (Nat.le_of_succ_le h))

end

theorem counts_min (source : List Char) (offset : Nat) :
    lineAt source (min offset source.length) = lineAt source offset ∧
      charAt source (min offset source.length) = charAt source offset := by
  rw [lineAt, charAt, ← List.take_take, List.take_length]
  exact ⟨rfl, rfl⟩

/-- A later offset is in a later line, or behind in the same one. -/
theorem Stands.before {source : List Char} {line char offset line' char' offset' : Nat}
    (h : Stands source line char offset) (h' : Stands source line' char' offset')
    (hlt : offset < offset') : line < line' ∨ line = line' ∧ char < char' := by
  obtain ⟨_, _, _, hsum⟩ := h
  obtain ⟨text, htext, hle, hsum'⟩ := h'
  rcases Nat.lt_trichotomy line line' with hline | rfl | hline
  · exact Or.inl hline
  · exact Or.inr ⟨rfl, by omega⟩
  · have hstart := lineStart_mono source (Nat.succ_le_of_lt hline)
    rw [lineStart_succ htext] at hstart
    omega

/-- An offset and its position say the same. An offset, or the end of the source if that comes
first, is resolved to a line of the source and to a place in this line, which may be its end,
and the lengths of the lines before it, a line feed with each, together with the place in the
line make up the offset. So of two different offsets within the source the smaller one has the
earlier position, no two of them have the same line and character, and the offset can be
computed from the position. -/
theorem ofOffset_lossless (source : List Char) :
    (∀ offset node, ∃ line char text,
      ofOffset source offset node = ⟨node, some line, some char⟩ ∧
      (lines source)[line]? = some text ∧ char ≤ text.length ∧
      (((lines source).take line).map fun text => text.length + 1).sum + char =
        min offset source.length) ∧
    (∀ a b node, a < b → b ≤ source.length →
      Before (ofOffset source a node) (ofOffset source b node)) ∧
    (∀ a b node node', a ≤ source.length → b ≤ source.length →
      (ofOffset source a node).line = (ofOffset source b node').line →
      (ofOffset source a node).char = (ofOffset source b node').char → a = b) ∧
    ∀ offset node,
      offset? source (ofOffset source offset node) = some (min offset source.length) := by
  have hstands : ∀ offset, Stands source (lineAt source offset) (charAt source offset)
      (min offset source.length) := by
    intro offset
    obtain ⟨hline, hchar⟩ := counts_min source offset
    rw [← hline, ← hchar]
    exact stands_counts (Nat.min_le_right _ _)
  refine ⟨fun offset node => ?_, fun a b node hlt hb => ?_, fun a b node node' ha hb hline hchar => ?_,
    fun offset node => ?_⟩
  · obtain ⟨text, htext, hle, hsum⟩ := hstands offset
    exact ⟨_, _, text, ofOffset_eq source offset node, htext, hle, hsum⟩
  · have ha : a ≤ source.length := Nat.le_trans (Nat.le_of_lt hlt) hb
    exact ⟨_, _, _, _, rfl, rfl, rfl, rfl, (stands_counts ha).before (stands_counts hb) hlt⟩
  · simp only [ofOffset_eq, Option.some.injEq] at hline hchar
    obtain ⟨_, _, _, hsum⟩ := stands_counts ha
    obtain ⟨_, _, _, hsum'⟩ := stands_counts hb
    rw [← hsum, ← hsum', hline, hchar]
  · obtain ⟨_, _, _, hsum⟩ := hstands offset
    exact congrArg some hsum

/-- An offset on a line feed is at the end of its line, and the next one begins a line. -/
example :
    ofOffset ['a', '\n', '\n', 'b'] 1 none = ⟨none, some 0, some 1⟩ ∧
      ofOffset ['a', '\n', '\n', 'b'] 2 none = ⟨none, some 1, some 0⟩ ∧
      ofOffset ['a', '\n', '\n', 'b'] 9 none = ⟨none, some 2, some 1⟩ := by
  decide

end DialogueScript.Position
