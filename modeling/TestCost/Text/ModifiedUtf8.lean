/-!
# Text in class files

A class file writes text in a variant of UTF-8: the null character takes
two bytes, and a character beyond the basic plane is written as the two
halves of a surrogate pair, three bytes each. Bytes that are plain UTF-8
are taken as such; only bytes that are not are read by the variant.
-/

namespace TestCost

namespace Text

/-- A byte from `low` to `high`. -/
private def isWithin (low high : Nat) (b : UInt8) : Bool :=
  low ≤ b.toNat && b.toNat ≤ high

/-- A byte that continues a character. -/
private def isContinuation (b : UInt8) : Bool := isWithin 0x80 0xbf b

/-- The low six bits. -/
private def payload (b : UInt8) : Nat := b.toNat % 64

/-- Lowest byte that may follow a lead byte of three: shorter forms exist
for anything below. -/
private def lowestSecond (lead : UInt8) : Nat :=
  if lead.toNat = 0xe0 then 0xa0 else 0x80

/-- Highest byte that may follow a lead byte of three outside a pair. -/
private def highestSecond (lead : UInt8) : Nat :=
  if lead.toNat = 0xed then 0x9f else 0xbf

/-- Characters written in the variant; `none` when the bytes are no text. -/
def modifiedChars : List UInt8 → Option (List Char)
  | [] => some []
  | a :: rest =>
    if a.toNat = 0 then none
    else if a.toNat < 0x80 then
      (modifiedChars rest).map (Char.ofNat a.toNat :: ·)
    else match rest with
      | [] => none
      | b :: rest =>
        if a.toNat = 0xc0 then
          if b.toNat = 0x80 then (modifiedChars rest).map (Char.ofNat 0 :: ·)
          else none
        else if 0xc2 ≤ a.toNat ∧ a.toNat ≤ 0xdf then
          if isContinuation b then
            (modifiedChars rest).map
              (Char.ofNat (a.toNat % 32 * 64 + payload b) :: ·)
          else none
        else if 0xe0 ≤ a.toNat ∧ a.toNat ≤ 0xef then
          match rest with
          | [] => none
          | c :: rest =>
            if !isContinuation c then none
            else if isWithin (lowestSecond a) (highestSecond a) b then
              let code := (a.toNat % 16 * 64 + payload b) * 64 + payload c
              (modifiedChars rest).map (Char.ofNat code :: ·)
            else if a.toNat = 0xed && isWithin 0xa0 0xaf b then
              match rest with
              | d :: e :: f :: rest =>
                if d.toNat =
                  0xed && isWithin 0xb0 0xbf e && isContinuation f then
                  let high := b.toNat % 16 * 64 + payload c
                  let low := e.toNat % 16 * 64 + payload f
                  (modifiedChars rest).map
                    (Char.ofNat (0x10000 + high * 1024 + low) :: ·)
                else none
              | _ => none
            else none
        else none

/-- The text that the bytes of a class file stand for. -/
def ofClassFileBytes (bytes : Array UInt8) : Option String :=
  match String.fromUTF8? ⟨bytes⟩ with
  | some text => some text
  | none => (modifiedChars bytes.toList).map String.ofList

end Text

end TestCost
