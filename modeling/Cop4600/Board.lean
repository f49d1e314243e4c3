import Cop4600.Dialogue

/-!
# A board and its visitors

What the wall server is for. A board shows the last `n` messages since it was cleared.
Visitors come one after the other, and each says some lines; the board answers each
line with some texts. There are no connections here, no chunks, no arrays and no ring
of slots.
-/

namespace Cop4600

open Ring

namespace Board

/-- What the next line is taken for. -/
inductive Awaits : Type where
  | command
  | name
  | message (name : Bytes)

/-- The board. -/
def shown (n : Nat) (messages : List Bytes) : List Bytes :=
  wallTexts (if messages = [] then none else some (lastN n messages))

/-- What comes of some lines: the messages afterwards, the texts in answer to them, and
whether the server is told to terminate. -/
structure Visit : Type where
  /-- what is on the board afterwards -/
  messages : List Bytes
  /-- what the visitor is told -/
  texts : List Bytes
  /-- whether the visitor has closed the board -/
  killed : Bool

/-- A visit that begins with these texts. -/
def Visit.after (texts : List Bytes) (v : Visit) : Visit := { v with texts := texts ++ v.texts }

/-- No name is longer than 78 bytes, and it has less than 78 together with its message: the
server reads both into one array, and a longer message leaves that before it is refused. -/
def PostsFit : Awaits → (lines : List Bytes) → Prop
  | _, [] => True
  | .command, line :: lines =>
    if heard line = chars ['p', 'o', 's', 't'] then PostsFit .name lines
    else heard line = chars ['k', 'i', 'l', 'l'] ∨ heard line = chars ['q', 'u', 'i', 't'] ∨
      PostsFit .command lines
  | .name, line :: lines => (heard line).length ≤ 78 ∧ PostsFit (.message (heard line)) lines
  | .message name, line :: lines => name.length + line.length < 78 ∧ PostsFit .command lines

instance decidablePostsFit : ∀ (awaits : Awaits) (lines : List Bytes),
    Decidable (PostsFit awaits lines)
  | .command, [] | .name, [] | .message _, [] => isTrue trivial
  | .command, line :: lines =>
    have := decidablePostsFit .name lines
    have := decidablePostsFit .command lines
    inferInstanceAs (Decidable (if heard line = chars ['p', 'o', 's', 't'] then PostsFit .name lines
      else _ ∨ _ ∨ PostsFit .command lines))
  | .name, line :: lines =>
    have := decidablePostsFit (.message (heard line)) lines
    inferInstanceAs (Decidable (_ ∧ _))
  | .message _, _ :: lines =>
    have := decidablePostsFit .command lines
    inferInstanceAs (Decidable (_ ∧ _))

end Board

end Cop4600
