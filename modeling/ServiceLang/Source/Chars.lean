/-!
The character classes that every scanner of the language shares, and the length
of a text in bytes.

Blanks are the four characters that separate tokens.  Word characters are the
ASCII letters, digits and the underscore; `Char.isAlphanum` knows ASCII only,
which is what the language asks for.
-/

namespace ServiceLang

/-- Space, tab, carriage return and newline. -/
def isBlank (c : Char) : Bool := c = ' ' || c = '\t' || c = '\r' || c = '\n'

/-- ASCII letters, digits and the underscore. -/
def isWordChar (c : Char) : Bool := c.isAlphanum || c = '_'

/-- A word starts with an ASCII letter or the underscore. -/
def isWordStart (c : Char) : Bool := c.isAlpha || c = '_'

/-- The ASCII control characters, delete among them. -/
def isAsciiControl (c : Char) : Bool := c.toNat < 0x20 || c.toNat = 0x7f

/-- The number of bytes that the text takes in UTF-8. -/
def byteLength : List Char → Nat
  | [] => 0
  | c :: cs => c.utf8Size + byteLength cs

/-- The longest beginning of the text that fits into so many bytes. -/
def takeBytes : Nat → List Char → List Char
  | _, [] => []
  | n, c :: cs => if c.utf8Size ≤ n then c :: takeBytes (n - c.utf8Size) cs else []

/-- What follows the first so many bytes; a character cut in two is dropped whole. -/
def dropBytes : Nat → List Char → List Char
  | 0, cs => cs
  | _ + 1, [] => []
  | n + 1, c :: cs => dropBytes (n + 1 - c.utf8Size) cs

@[simp] theorem byteLength_nil : byteLength [] = 0 := rfl

@[simp] theorem byteLength_cons (c : Char) (cs : List Char) :
    byteLength (c :: cs) = c.utf8Size + byteLength cs := rfl

@[simp] theorem byteLength_append (xs ys : List Char) :
    byteLength (xs ++ ys) = byteLength xs + byteLength ys := by
  induction xs with
  | nil => simp
  | cons c cs ih => simp [ih, Nat.add_assoc]

/-- A character takes one byte at least. -/
theorem length_le_byteLength (cs : List Char) : cs.length ≤ byteLength cs := by
  induction cs with
  | nil => exact Nat.le_refl 0
  | cons c cs ih =>
    calc cs.length + 1
        ≤ byteLength cs + c.utf8Size := Nat.add_le_add ih c.utf8Size_pos
      _ = byteLength (c :: cs) := Nat.add_comm _ _

/-- The length is that of the string which the characters make. -/
theorem byteLength_eq_utf8ByteSize (cs : List Char) :
    byteLength cs = (String.ofList cs).utf8ByteSize := by
  induction cs with
  | nil => rfl
  | cons c cs ih => simp [ih, String.ofList_cons]

/-- A beginning of known byte length is recovered exactly. -/
theorem takeBytes_append (xs ys : List Char) : takeBytes (byteLength xs) (xs ++ ys) = xs := by
  induction xs with
  | nil =>
    cases ys with
    | nil => rfl
    | cons c cs => simp [takeBytes, Nat.pos_iff_ne_zero.1 (Char.utf8Size_pos c)]
  | cons c cs ih => simp [takeBytes, ih]

/-- What follows a beginning of known byte length is recovered exactly. -/
theorem dropBytes_append (xs ys : List Char) : dropBytes (byteLength xs) (xs ++ ys) = ys := by
  induction xs with
  | nil => cases ys <;> rfl
  | cons c cs ih =>
    have h := Char.utf8Size_pos c
    obtain ⟨n, hn⟩ : ∃ n, c.utf8Size + byteLength cs = n + 1 :=
      ⟨_, (Nat.succ_pred_eq_of_pos (by omega)).symm⟩
    simp only [byteLength_cons, List.cons_append, hn, dropBytes]
    rw [show n + 1 - c.utf8Size = byteLength cs by omega, ih]

end ServiceLang
