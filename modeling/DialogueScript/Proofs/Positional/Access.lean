import DialogueScript.Fault
import DialogueScript.Position
import DialogueScript.Proofs.Text

/-!
# Operations that need not have a value

A reader that walks through a text by positions rests on operations that can go wrong: the
item at an index, a slice, a difference of two positions, a cut of a text at a byte that may
stand inside a character. Here each of them is an `Option`, with `none` where it has no
value. The loops and recursions built on them are given some fuel, a number of rounds that the
length of what they read bounds, and are `none` as well if they would go on beyond it.

A `Reading` may in addition find a fault with what it reads. It is `done` if it comes to an
end with every operation in range, be it with a value or with a fault; that is what the
modules on top of this one show of every step of compiling and running a script.

Main statements:
1. `done_bind_done`: steps that are done compose to one that is.
2. `cutAt?_byteLength`: a text is cut at a byte position that stands between two of its
   characters, and the parts are what they should be.
3. `findByte?_eq` and `findLastByte?_eq`: the positions that a search finds are such.
-/

namespace DialogueScript.Positional

open Text

/-! ## Readings -/

/-- A computation on positions that may find a fault. -/
abbrev Reading (α : Type) := ExceptT (Located Fault) Option α

section

variable {α β : Type}

/-- The value of an operation, which has to be in range. -/
def checked (x : Option α) : Reading α := ExceptT.lift x

/-- The reading that has come to an end with a value or a fault. -/
def done (r : Except (Located Fault) α) : Reading α := ExceptT.mk (some r)

@[simp]
theorem checked_some (a : α) : checked (some a) = done (.ok a) := rfl

@[simp]
theorem pure_eq_done (a : α) : (pure a : Reading α) = done (.ok a) := rfl

@[simp]
theorem throw_eq_done (e : Located Fault) : (throw e : Reading α) = done (.error e) := rfl

@[simp]
theorem done_ok_bind (a : α) (f : α → Reading β) : done (.ok a) >>= f = f a := rfl

@[simp]
theorem adapt_done (r : Except (Located Fault) α) (f : Located Fault → Located Fault) :
    (done r).adapt f = done (r.mapError f) := rfl

theorem done_bind_pure (r : Except (Located Fault) α) (f : α → β) :
    (done r >>= fun a => pure (f a)) = done (r.map f) := by
  cases r <;> rfl

theorem done_map_bind {γ : Type} (r : Except (Located Fault) α) (g : α → β) (f : β → Reading γ) :
    done (r.map g) >>= f = done r >>= fun a => f (g a) := by
  cases r <;> rfl

theorem done_bind_done (r : Except (Located Fault) α) (f : α → Except (Located Fault) β) :
    (done r >>= fun a => done (f a)) = done (r >>= f) := by
  cases r <;> rfl

theorem map_eq_bind {ε : Type} (x : Except ε α) (f : α → β) :
    x.map f = x >>= fun a => pure (f a) := by
  cases x <;> rfl

end

/-! ## Fuel -/

/-- Fuel above a bound lasts for a round and leaves the bound behind it. -/
theorem exists_round_of_lt {bound fuel : Nat} (h : bound < fuel) :
    ∃ left, fuel = left + 1 ∧ bound ≤ left :=
  ⟨fuel - 1, by omega, by omega⟩

/-! ## Indices and differences -/

section

variable {α : Type}

/-- The difference of two numbers, if it is not below zero. -/
def sub? (a b : Nat) : Option Nat := if b ≤ a then some (a - b) else none

/-- The items from one index up to another, if both are in range and in order. -/
def slice? (items : List α) (start stop : Nat) : Option (List α) :=
  if start ≤ stop ∧ stop ≤ items.length then some ((items.take stop).drop start) else none

def suffix? (items : List α) (start : Nat) : Option (List α) := slice? items start items.length

def modify? (items : List α) (index : Nat) (f : α → α) : Option (List α) :=
  if index < items.length then some (items.modify index f) else none

theorem sub?_of_le {a b : Nat} (h : b ≤ a) : sub? a b = some (a - b) := if_pos h

theorem slice?_of_le {items : List α} {start stop : Nat} (h : start ≤ stop)
    (hs : stop ≤ items.length) : slice? items start stop = some ((items.take stop).drop start) :=
  if_pos ⟨h, hs⟩

theorem suffix?_of_le {items : List α} {start : Nat} (h : start ≤ items.length) :
    suffix? items start = some (items.drop start) := by
  rw [suffix?, slice?_of_le h (Nat.le_refl _), List.take_length]

theorem modify?_of_lt {items : List α} {index : Nat} (h : index < items.length) (f : α → α) :
    modify? items index f = some (items.modify index f) := if_pos h

/-- The item behind a front of known length is changed. -/
theorem modify?_append (front rest : List α) (a : α) (f : α → α) :
    modify? (front ++ a :: rest) front.length f = some (front ++ f a :: rest) := by
  have hmodify : (front ++ a :: rest).modify front.length f = front ++ f a :: rest := by
    induction front with
    | nil => rfl
    | cons b front ih => simpa using ih
  rw [modify?_of_lt (by simp), hmodify]

theorem slice?_append {items front more : List α} {start : Nat}
    (h : items.drop start = front ++ more) (hs : start ≤ items.length) :
    slice? items start (start + front.length) = some front := by
  have hlen := congrArg List.length h
  simp only [List.length_drop, List.length_append] at hlen
  rw [slice?_of_le (by omega) (by omega), List.drop_take, h]
  simp

theorem getElem?_append_cons (front rest : List α) (a : α) :
    (front ++ a :: rest)[front.length]? = some a :=
  getElem?_of_drop List.drop_left

theorem length_lt_append_cons (front rest : List α) (a : α) :
    rest.length < (front ++ a :: rest).length := by
  rw [List.length_append, List.length_cons]
  omega

theorem lt_length_of_drop_eq_cons {items rest : List α} {i : Nat} {a : α}
    (h : items.drop i = a :: rest) : i < items.length :=
  List.getElem?_eq_some_iff.mp (getElem?_of_drop h) |>.1

theorem length_le_of_drop_eq {items rest : List α} {i : Nat} (h : items.drop i = rest) :
    rest.length ≤ items.length := by
  rw [← h, List.length_drop]
  exact Nat.sub_le _ _

end

/-! ## Byte positions -/

/-- How many bytes a text takes in UTF-8. -/
def byteLength (text : List Char) : Nat := (text.map Char.utf8Size).sum

@[simp]
theorem byteLength_nil : byteLength [] = 0 := rfl

@[simp]
theorem byteLength_cons (c : Char) (text : List Char) :
    byteLength (c :: text) = c.utf8Size + byteLength text := by
  simp [byteLength]

@[simp]
theorem byteLength_append (front rest : List Char) :
    byteLength (front ++ rest) = byteLength front + byteLength rest := by
  simp [byteLength]

theorem byteLength_eq_length {text : List Char} (h : ∀ c ∈ text, c.utf8Size = 1) :
    byteLength text = text.length := by
  induction text with
  | nil => rfl
  | cons c rest ih =>
    obtain ⟨hc, hrest⟩ := List.forall_mem_cons.mp h
    rw [byteLength_cons, hc, ih hrest, List.length_cons, Nat.add_comm]

/-- Cuts a text at a byte position, if it is in range and does not stand inside a
character. -/
def cutAt? : Nat → List Char → Option (List Char × List Char)
  | 0, text => some ([], text)
  | _ + 1, [] => none
  | n + 1, c :: rest =>
    if c.utf8Size ≤ n + 1 then
      (cutAt? (n + 1 - c.utf8Size) rest).map fun (front, back) => (c :: front, back)
    else none

theorem cutAt?_byteLength (front back : List Char) :
    cutAt? (byteLength front) (front ++ back) = some (front, back) := by
  induction front with
  | nil => simp [cutAt?]
  | cons c rest ih =>
    obtain ⟨n, hn⟩ := Nat.exists_eq_add_of_lt c.utf8Size_pos
    have hlen : byteLength (c :: rest) = n + byteLength rest + 1 := by
      rw [byteLength_cons]
      omega
    have hsize : c.utf8Size ≤ n + byteLength rest + 1 := by omega
    have hrest : n + byteLength rest + 1 - c.utf8Size = byteLength rest := by omega
    rw [hlen, List.cons_append, cutAt?, if_pos hsize, hrest, ih]
    rfl

/-- A position inside a character is no place to cut at. -/
example : cutAt? 2 ['h', 'é', '!'] = none := by decide

def before? (text : List Char) (stop : Nat) : Option (List Char) := (cutAt? stop text).map Prod.fst

def from? (text : List Char) (start : Nat) : Option (List Char) := (cutAt? start text).map Prod.snd

/-- The text between two byte positions, which have to be in order. -/
def between? (text : List Char) (start stop : Nat) : Option (List Char) := do
  let front ← before? text stop
  from? front start

/-- How many characters stand before a byte position. -/
def charOffset? (text : List Char) (position : Nat) : Option Nat :=
  (before? text position).map List.length

@[simp]
theorem before?_append (front back : List Char) :
    before? (front ++ back) (byteLength front) = some front := by
  rw [before?, cutAt?_byteLength]
  rfl

@[simp]
theorem from?_append (front back : List Char) :
    from? (front ++ back) (byteLength front) = some back := by
  rw [from?, cutAt?_byteLength]
  rfl

theorem between?_append (front middle back : List Char) :
    between? (front ++ (middle ++ back)) (byteLength front) (byteLength (front ++ middle)) =
      some middle := by
  rw [between?, ← List.append_assoc, before?_append]
  exact from?_append front middle

@[simp]
theorem charOffset?_append (front back : List Char) :
    charOffset? (front ++ back) (byteLength front) = some front.length := by
  rw [charOffset?, before?_append]
  rfl

/-! ## Searches -/

/-- The byte position of the first character with a property, in a text that begins at a
position. -/
def findByteFrom? (p : Char → Bool) (position : Nat) : List Char → Option Nat
  | [] => none
  | c :: rest => if p c then some position else findByteFrom? p (position + c.utf8Size) rest

def findByte? (mark : Char) (text : List Char) : Option Nat := findByteFrom? (· = mark) 0 text

/-- The byte position of the last occurrence of a mark, in a text that begins at a position. -/
def findLastByteFrom? (mark : Char) (position : Nat) : List Char → Option Nat
  | [] => none
  | c :: rest =>
    match findLastByteFrom? mark (position + c.utf8Size) rest with
    | some found => some found
    | none => if c = mark then some position else none

def findLastByte? (mark : Char) (text : List Char) : Option Nat := findLastByteFrom? mark 0 text

/-- The first character that is not of a class stands behind the longest front of the class. -/
theorem findByteFrom?_getD (p : Char → Bool) (position : Nat) (text : List Char) :
    (findByteFrom? (!p ·) position text).getD (position + byteLength text) =
      position + byteLength (text.takeWhile p) := by
  induction text generalizing position with
  | nil => rfl
  | cons c rest ih =>
    rw [findByteFrom?, List.takeWhile_cons]
    cases hc : p c with
    | true => simpa [Nat.add_assoc] using ih (position + c.utf8Size)
    | false => simp

theorem findByteFrom?_eq (mark : Char) (text : List Char) (position : Nat) :
    findByteFrom? (· = mark) position text =
      (cutFirst? mark text).map fun cut => position + byteLength cut.1 := by
  induction text generalizing position with
  | nil => rfl
  | cons c rest ih =>
    rw [findByteFrom?, ih, cutFirst?]
    by_cases hc : c = mark
    · simp [hc]
    · simp [hc, Function.comp_def, Nat.add_assoc]

theorem findIdx?_eq_cutFirst? (mark : Char) (text : List Char) :
    text.findIdx? (· = mark) = (cutFirst? mark text).map fun cut => cut.1.length := by
  induction text with
  | nil => rfl
  | cons c rest ih =>
    rw [List.findIdx?_cons, cutFirst?, ih]
    by_cases hc : c = mark
    · simp [hc]
    · simp [hc, Function.comp_def]

theorem findIdx?_getD_eq_takeWhile {p : Char → Bool} (text : List Char) :
    (text.findIdx? (!p ·)).getD text.length = (text.takeWhile p).length := by
  rw [← List.findIdx_eq_getD_findIdx?, List.takeWhile_eq_take_findIdx_not, List.length_take,
    Nat.min_eq_left List.findIdx_le_length]

/-- A search finds the place at which the text falls into two. -/
theorem findByte?_eq (mark : Char) (text : List Char) :
    findByte? mark text = (cutFirst? mark text).map fun cut => byteLength cut.1 := by
  simp [findByte?, findByteFrom?_eq]

theorem findLastByteFrom?_eq (mark : Char) (text : List Char) (position : Nat) :
    findLastByteFrom? mark position text =
      (cutLast? mark text).map fun cut => position + byteLength cut.1 := by
  induction text generalizing position with
  | nil => rfl
  | cons c rest ih =>
    rw [findLastByteFrom?, ih, cutLast?]
    cases cutLast? mark rest with
    | none =>
      simp only [Option.map_none]
      split <;> simp
    | some cut => simp [Nat.add_assoc]

/-- So does a search from the end. -/
theorem findLastByte?_eq (mark : Char) (text : List Char) :
    findLastByte? mark text = (cutLast? mark text).map fun cut => byteLength cut.1 := by
  simp [findLastByte?, findLastByteFrom?_eq]

end DialogueScript.Positional
