import DialogueScript.NameTable
import DialogueScript.Value

/-!
# Variable stores

The variables that a script reads and assigns. Host functions see the same
store, so they can publish results there.
-/

namespace DialogueScript

/-- The variables of a script, by name. -/
abbrev Store := NameTable Value

namespace Store

/-- The value of a variable. One that was never set is `undefined`. -/
def get (store : Store) (name : String) : Value :=
  (store.find? name).getD .undefined

/-- Setting a variable changes that variable and no other. -/
theorem get_insert (store : Store) (name : String) (value : Value) (key : String) :
    Store.get (store.insert name value) key = if key = name then value else store.get key := by
  rw [get, NameTable.find?_insert]
  split <;> rfl

end Store

end DialogueScript
