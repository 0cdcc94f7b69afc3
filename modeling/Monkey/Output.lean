/-!
# Output — where printed text goes

Printed text is sent to the terminal, kept for the caller, or dropped.
-/

namespace Monkey

inductive Output where
  -- To the terminal; `pending` is what has not been sent yet.
  | terminal (pending : String)
  -- Into a text that the caller can read.
  | buffer (text : String)
  -- Nowhere.
  | silent
deriving DecidableEq, Repr

namespace Output

def write (text : String) : Output → Output
  | terminal pending => terminal (pending ++ text)
  | buffer kept => buffer (kept ++ text)
  | silent => silent

def writeLine (text : String) (o : Output) : Output := o.write (text ++ "\n")

-- The text kept for the caller.
def kept : Output → String
  | buffer text => text
  | _ => ""

-- Forgets the text kept for the caller.
def clear : Output → Output
  | buffer _ => buffer ""
  | o => o

-- Takes what is to be sent to the terminal.
def flush : Output → String × Output
  | terminal pending => (pending, terminal "")
  | o => ("", o)

@[simp] theorem write_empty (o : Output) : o.write "" = o := by
  cases o <;> simp [write]

theorem write_append (s t : String) (o : Output) : o.write (s ++ t) = (o.write s).write t := by
  cases o <;> simp [write, String.append_assoc]

end Output

end Monkey
