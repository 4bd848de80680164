import DialogueScript.Script

/-!
# Running a script from a host program

A host program hands over the bytes of a source and gets back a report: the
variables after the run as lines `name=value`, or `[error] ` and the reason. The
report travels in a frame of four bytes for its length, the lowest first, and the
bytes of its UTF-8 text.
-/

namespace DialogueScript.Embedding

/-! ## Buffers and frames -/

/-- Whether a buffer of a size can be had: one of at least one byte, and of less
than `2 ^ 63`. -/
def isBufferSize (size : Nat) : Bool := 0 < size && size ≤ 9223372036854775807

/-- The lowest four bytes of a number, the lowest first. -/
def lengthBytes (n : Nat) : List UInt8 :=
  [UInt8.ofNat n, UInt8.ofNat (n / 256), UInt8.ofNat (n / 65536), UInt8.ofNat (n / 16777216)]

def natOfBytes : List UInt8 → Nat
  | [] => 0
  | b :: rest => b.toNat + 256 * natOfBytes rest

def frame (text : String) : List UInt8 :=
  let bytes := text.toUTF8.toList
  lengthBytes bytes.length ++ bytes

def unframe? (bytes : List UInt8) : Option (Nat × String) :=
  let length := natOfBytes (bytes.take 4)
  (String.fromUTF8? ⟨((bytes.drop 4).take length).toArray⟩).map fun text => (length, text)

/-! ## Running -/

/-- The source in the bytes that a host hands over. No bytes at all and bytes that
are not UTF-8 count as an empty source. -/
def sourceOfBytes (bytes : Option ByteArray) : String :=
  (bytes.bind String.fromUTF8?).getD ""

def listing (store : Store) : String :=
  "\n".intercalate (store.entries.map fun (name, value) => name ++ "=" ++ value.display)

def complaint (reason : String) : String := "[error] " ++ reason

/-- Compiles a source, executes it on an empty store, and reports. -/
def report (draws : Nat → Float) (source : String) : String :=
  match Script.compile Registry.builtin source none with
  | .error e => complaint (e.render Fault.message)
  | .ok script =>
    let outcome := script.execute none { store := .empty, draws }
    match outcome.failure with
    | some e => complaint (e.render CallFailure.text)
    | none => listing outcome.machine.store

/-- The framed report on the bytes that a host hands over. -/
def run (draws : Nat → Float) (bytes : Option ByteArray) : List UInt8 :=
  frame (report draws (sourceOfBytes bytes))

end DialogueScript.Embedding
