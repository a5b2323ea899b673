import Mathlib
import TestCost.Proofs.Code.Mapping
import TestCost.Proofs.Code.RoundTrip

/-!
# Where instructions end

How long an instruction is follows from the format: for most of them from the
first byte, for the wide ones from the second, for switches from the bounds of
their tables (`Encoding.Spans`). A reader that goes by another length reads the
rest of the code out of step, and what it finds there are instructions too.

The length that the reader adds to an offset and the bytes that it looks at are
two things. They agree for all instructions but two: of a call through an
interface and of a call site, three bytes are looked at, and five are passed
over. So both are kept apart here (`Form.extent?`). The one is compared with the
format, opcode by opcode; the other is what is known to lie within the code.

## Main results

* `bigEndian_toNat` — bytes are the only way to write the number they stand for,
  so what has been read says what the code has.
* `Code.spans_of_readInstruction` — instructions are as long as the format says,
  and lie within the code but for calls of the two kinds.
* `Code.tiles_of_readInstructions` — hence instructions cover the code.
-/

namespace TestCost

/-! ## Numbers -/

theorem bigEndian_succ (size n : Nat) :
    bigEndian (size + 1) n = bigEndian size (n / 256) ++ [UInt8.ofNat n] := by
  induction size with
  | zero => simp [bigEndian]
  | succ size ih =>
      rw [bigEndian, ih, bigEndian, List.cons_append, Nat.div_div_eq_div_mul,
        Nat.pow_succ']

theorem toNat_append_singleton (bytes : List UInt8) (b : UInt8) :
    Bytes.toNat (bytes ++ [b]).toArray = Bytes.toNat bytes.toArray * 256 +
      b.toNat := by
  simp [Bytes.toNat]

theorem bigEndian_toNat (bytes : List UInt8) :
    bigEndian bytes.length (Bytes.toNat bytes.toArray) = bytes := by
  induction bytes using List.reverseRecOn with
  | nil => rfl
  | append_singleton bytes b ih =>
      have hb := b.toNat_lt
      have hdiv : (Bytes.toNat bytes.toArray * 256 + b.toNat) / 256 =
          Bytes.toNat bytes.toArray := by omega
      have hlast :
          UInt8.ofNat (Bytes.toNat bytes.toArray * 256 + b.toNat) = b := by
        apply UInt8.toNat_inj.1
        rw [UInt8.toNat_ofNat']
        omega
      rw [List.length_append, List.length_singleton, toNat_append_singleton,
        bigEndian_succ, hdiv, ih, hlast]

theorem toNat_lt (bytes : List UInt8) :
    Bytes.toNat bytes.toArray < 256 ^ bytes.length := by
  induction bytes using List.reverseRecOn with
  | nil => simp [Bytes.toNat]
  | append_singleton bytes b ih =>
      have hb := b.toNat_lt
      rw [toNat_append_singleton, List.length_append, List.length_singleton,
        Nat.pow_succ]
      omega

/-- A number that is read as a signed one fits, and is written by the same
bytes. -/
theorem signedBytes_signed {size n : Nat} (h : n < 256 ^ size) :
    FitsSigned size (signed (8 * size) n) ∧
      signedBytes size (signed (8 * size) n) = bigEndian size n := by
  have hpow : Nat.pow 2 (8 * size) = 256 ^ size := Nat.pow_mul 2 8 size
  have hpos : 0 < 256 ^ size := by positivity
  rw [signed, hpow]
  constructor
  · have hlow := Int.le_bmod hpos (x := n)
    have hhigh := Int.bmod_lt hpos (x := n)
    constructor
    · omega
    · omega
  · have hmod : (n : Int) % (256 ^ size : Nat) = n :=
      Int.emod_eq_of_lt (by omega) (by omega)
    rw [signedBytes, Int.bmod_emod, hmod, Int.toNat_natCast]

/-! ## Lengths by the format -/

namespace Encoding

/-- The number of bytes of an instruction, where the first byte decides it. -/
def fixedLength? (opcode : Nat) : Option Nat :=
  if opcode ∈ plain ++ opcodes 0x1a 0x2d ++ opcodes 0x3b 0x4e then some 1
  else if opcode ∈ slot ++ [0x10, 0x12, 0xbc] then some 2
  else if opcode ∈ jump ++ classRef ++ field ++ method ++
    [0x11, 0x13, 0x14, 0x84] then some 3
  else if opcode = 0xc5 then some 4
  else if opcode ∈ [0xb9, 0xba, 0xc8, 0xc9] then some 5
  else none

/-- The first byte decides it for all but the two switches and `wide`. -/
example :
    (List.range 0xca).filter (fun opcode => (fixedLength? opcode).isNone) =
      [0xaa, 0xab, 0xc4] := by decide +kernel

/-- The table of a switch starts at the next multiple of four. -/
def TableAt (offset start : Nat) : Prop :=
  offset < start ∧ start ≤ offset + 4 ∧ start % 4 = 0

/-- The instruction at an offset ends at another one, by the rules of the
format. What counts for that need not be the whole of it. -/
inductive Spans (code : Bytes) (offset : Nat) : Nat → Prop where
  | fixed {opcode length : Nat} : code.HasAt offset (bigEndian 1 opcode) →
      opcode < 256 →
      fixedLength? opcode = some length → Spans code offset (offset + length)
  | wideSlot {opcode : Nat} : code.HasAt offset (bigEndian 1 0xc4) →
      code.HasAt (offset + 1) (bigEndian 1 opcode) → opcode ∈ slot →
        Spans code offset (offset + 4)
  | wideIncrement : code.HasAt offset (bigEndian 1 0xc4) →
      code.HasAt (offset + 1) (bigEndian 1 0x84) →
        Spans code offset (offset + 6)
  | tableSwitch {start count : Nat} {low : Int} :
      code.HasAt offset (bigEndian 1 0xaa) →
      TableAt offset start → FitsSigned 4 low → FitsSigned 4 (low + count - 1) →
      code.HasAt (start + 4) (signedBytes 4 low) →
      code.HasAt (start + 8) (signedBytes 4 (low + count - 1)) →
      Spans code offset (start + 12 + 4 * count)
  | lookupSwitch {start count : Nat} : code.HasAt offset (bigEndian 1 0xab) →
      TableAt offset start → FitsSigned 4 count →
        code.HasAt (start + 4) (signedBytes 4 count) →
      Spans code offset (start + 8 + 8 * count)

/-- The instructions lie one after the other, from an offset to another one. -/
inductive Tiles (code : Bytes) : Nat → List Instruction → Nat → Prop where
  | nil (offset : Nat) : Tiles code offset [] offset
  | cons {i : Instruction} {rest : List Instruction} {next stop : Nat} :
      Spans code i.offset next → Tiles code next rest stop →
        Tiles code i.offset (i :: rest) stop

end Encoding

/-! ## Lengths by the reader -/

/-- How many bytes are looked at and how many are passed over, for a form that
decides both. -/
def Form.extent? : Form → Option (Nat × Nat)
  | .plain | .impliedSlot _ _ => some (1, 1)
  | .slot | .byteValue | .arrayCode | .nearConstant => some (2, 2)
  | .increment | .shortValue | .farConstant _ | .classRef | .field
  | .nearJump => some (3, 3)
  | .method padding => some (3, 3 + padding)
  | .callSite => some (3, 5)
  | .multiArray => some (4, 4)
  | .farJump _ => some (5, 5)
  | .tableSwitch | .lookupSwitch | .wide => none

/-- Calls through an interface, and call sites. -/
def Instruction.HasSpareBytes (i : Instruction) : Prop :=
  i.opcode = 0xb9 ∨ i.opcode = 0xba

namespace Code

open Encoding

variable {pool : Pool} {code : Bytes} {offset stop : Nat} {i : Instruction}

theorem hasAt_of_wordAt {size n : Nat} (h : wordAt code size offset = .ok n) :
    code.HasAt offset (bigEndian size n) ∧ n < 256 ^ size := by
  rw [wordAt] at h
  split at h
  case isFalse => cases h
  case isTrue hle =>
    obtain rfl := Except.ok.inj h
    let bytes := (code.extract offset (offset + size)).toList
    have hlength : bytes.length = size := by
      simp only [bytes, Array.length_toList, Array.size_extract]
      omega
    have hvalue := bigEndian_toNat bytes
    have hlt := toNat_lt bytes
    rw [hlength, Array.toArray_toList] at hvalue hlt
    refine ⟨⟨code.toList.take offset, code.toList.drop (offset + size), ?_, ?_⟩,
      hlt⟩
    · rw [hvalue]
      simp [bytes, List.extract, List.append_assoc]
    · rw [List.length_take, Array.length_toList]
      omega

theorem le_of_wordAt {size n : Nat} (h : wordAt code size offset = .ok n) :
    offset + size ≤ code.size := by
  have := (hasAt_of_wordAt h).1.le
  rwa [length_bigEndian] at this

theorem hasAt_of_signedAt {size : Nat} {v : Int}
    (h : signedAt code size offset = .ok v) :
    code.HasAt offset (signedBytes size v) ∧ FitsSigned size v := by
  obtain ⟨n, hn, rfl⟩ := map_eq_ok_iff.1 h
  obtain ⟨hat, hlt⟩ := hasAt_of_wordAt hn
  obtain ⟨hfits, hbytes⟩ := signedBytes_signed hlt
  exact ⟨hbytes ▸ hat, hfits⟩

theorem le_of_signedAt {size : Nat} {v : Int}
    (h : signedAt code size offset = .ok v) :
    offset + size ≤ code.size := by
  have := (hasAt_of_signedAt h).1.le
  rwa [length_signedBytes] at this

theorem le_of_checkTable {start count entrySize : Nat} (hsize : 0 < entrySize)
    (hstart : start ≤ code.size)
    (h : checkTable code offset start count entrySize = .ok ()) :
    start + count * entrySize ≤ code.size := by
  rw [checkTable] at h
  split at h
  case isTrue => cases h
  case isFalse hfits =>
    rw [Nat.not_lt, Nat.le_div_iff_mul_le hsize] at hfits
    omega

theorem eq_of_caseCount? {low high : Int} {count : Nat}
    (h : caseCount? low high = some count) :
    high = low + count - 1 := by
  simp only [caseCount?] at h
  split at h
  case isTrue hrange =>
    have := Option.some.inj h
    omega
  case isFalse => cases h

theorem tableAt_padding (offset : Nat) :
    TableAt offset (offset + 1 + padding offset) := by
  simp only [TableAt, padding]
  omega

/-- Opcodes agree with their forms about lengths, and bytes that are not looked
at are spare. -/
theorem fixedLength?_of_extent? :
    ∀ opcode < 0xca, ∀ form ∈ Form.ofOpcode? opcode,
      ∀ extent ∈ form.extent?, fixedLength? opcode = some extent.2 ∧
        (extent.1 = extent.2 ∨
        extent = (3, 5) ∧ (form.basicOpcode opcode = 0xb9 ∨
          form.basicOpcode opcode = 0xba)) := by
  decide +kernel

theorem extent?_of_basicOpcode :
    ∀ opcode < 0xca, ∀ form ∈ Form.ofOpcode? opcode, form ≠ .wide →
      form.basicOpcode opcode = 0xb9 ∨ form.basicOpcode opcode = 0xba →
      form.extent? = some (3, 5) := by
  decide +kernel

theorem opcode_of_form : ∀ opcode < 0xca, ∀ form ∈ Form.ofOpcode? opcode,
    (form = .tableSwitch → opcode = 0xaa) ∧
      (form = .lookupSwitch → opcode = 0xab) ∧
      (form = .wide → opcode = 0xc4) := by
  decide +kernel

theorem mem_slot_of_takesSlot {opcode : Nat}
    (h : Form.takesSlot opcode = true) :
    opcode ∈ slot := by
  have hlt : opcode < 0xca := by
    simp [Form.takesSlot] at h
    omega
  have hall : ∀ opcode < 0xca, Form.takesSlot opcode = true →
      opcode ∈ slot := by
    decide +kernel
  exact hall opcode hlt h

/-- An instruction of a form with a fixed extent: what is passed over, and what
has to be there. -/
theorem extent_of_readForm
    {opcode base following seen length : Nat} {form : Form}
    {operand : Operand} (hextent : form.extent? = some (seen, length))
    (hstart : offset + 1 ≤ code.size) (h : readForm pool code offset opcode
      form = .ok (base, operand, following)) :
    following + 1 = length ∧ offset + seen ≤ code.size := by
  cases form with
  | plain | impliedSlot =>
      cases hextent
      cases h
      exact ⟨rfl, hstart⟩
  | slot | arrayCode =>
      cases hextent
      obtain ⟨v, hv, h⟩ := exists_of_bind_eq_ok h
      cases h
      have hle := le_of_wordAt hv
      exact ⟨rfl, by omega⟩
  | byteValue | shortValue =>
      cases hextent
      obtain ⟨v, hv, h⟩ := exists_of_bind_eq_ok h
      cases h
      have hle := le_of_signedAt hv
      exact ⟨rfl, by omega⟩
  | increment =>
      cases hextent
      obtain ⟨_, _, h⟩ := exists_of_bind_eq_ok h
      obtain ⟨v, hv, h⟩ := exists_of_bind_eq_ok h
      cases h
      have hle := le_of_signedAt hv
      exact ⟨rfl, by omega⟩
  | nearConstant | farConstant | classRef | field =>
      cases hextent
      obtain ⟨v, hv, h⟩ := exists_of_bind_eq_ok h
      obtain ⟨_, _, h⟩ := exists_of_bind_eq_ok h
      cases h
      have hle := le_of_wordAt hv
      exact ⟨rfl, by omega⟩
  | method padding =>
      cases hextent
      obtain ⟨v, hv, h⟩ := exists_of_bind_eq_ok h
      obtain ⟨_, _, h⟩ := exists_of_bind_eq_ok h
      cases h
      have hle := le_of_wordAt hv
      exact ⟨by omega, by omega⟩
  | callSite =>
      cases hextent
      obtain ⟨v, hv, h⟩ := exists_of_bind_eq_ok h
      obtain ⟨_, _, h⟩ := exists_of_bind_eq_ok h
      cases h
      have hle := le_of_wordAt hv
      exact ⟨rfl, by omega⟩
  | multiArray =>
      cases hextent
      obtain ⟨_, _, h⟩ := exists_of_bind_eq_ok h
      obtain ⟨_, _, h⟩ := exists_of_bind_eq_ok h
      obtain ⟨v, hv, h⟩ := exists_of_bind_eq_ok h
      cases h
      have hle := le_of_wordAt hv
      exact ⟨rfl, by omega⟩
  | nearJump | farJump =>
      cases hextent
      obtain ⟨v, hv, h⟩ := exists_of_bind_eq_ok h
      obtain ⟨_, _, h⟩ := exists_of_bind_eq_ok h
      cases h
      have hle := le_of_signedAt hv
      exact ⟨rfl, by omega⟩
  | tableSwitch | lookupSwitch | wide => cases hextent

theorem spans_of_tableSwitch {opcode base following : Nat}
    {operand : Operand} (hat : code.HasAt offset (bigEndian 1 0xaa))
    (h : readForm pool code offset opcode .tableSwitch =
      .ok (base, operand, following)) :
    Spans code offset (offset + 1 + following) ∧ offset + 1 + following ≤
      code.size := by
  simp only [readForm] at h
  obtain ⟨_, _, h⟩ := exists_of_bind_eq_ok h
  obtain ⟨_, _, h⟩ := exists_of_bind_eq_ok h
  obtain ⟨low, hlow, h⟩ := exists_of_bind_eq_ok h
  obtain ⟨high, hhigh, h⟩ := exists_of_bind_eq_ok h
  cases hcount : caseCount? low high with
  | none =>
      simp only [hcount] at h
      cases h
  | some count =>
      simp only [hcount] at h
      obtain ⟨_, hcheck, h⟩ := exists_of_bind_eq_ok h
      obtain ⟨_, _, h⟩ := exists_of_bind_eq_ok h
      obtain rfl : _ = following :=
        (Prod.mk.inj (Prod.mk.inj (Except.ok.inj h)).2).2
      obtain rfl := eq_of_caseCount? hcount
      obtain ⟨hatLow, hfitsLow⟩ := hasAt_of_signedAt hlow
      obtain ⟨hatHigh, hfitsHigh⟩ := hasAt_of_signedAt hhigh
      have hstart := le_of_signedAt hhigh
      have hle := le_of_checkTable (by decide) hstart hcheck
      have hspans := Spans.tableSwitch hat (tableAt_padding offset) hfitsLow
        hfitsHigh hatLow hatHigh
      refine ⟨?_, by omega⟩
      convert hspans using 1
      omega

theorem spans_of_lookupSwitch {opcode base following : Nat}
    {operand : Operand} (hat : code.HasAt offset (bigEndian 1 0xab))
    (h : readForm pool code offset opcode .lookupSwitch =
      .ok (base, operand, following)) :
    Spans code offset (offset + 1 + following) ∧ offset + 1 + following ≤
      code.size := by
  simp only [readForm] at h
  obtain ⟨_, _, h⟩ := exists_of_bind_eq_ok h
  obtain ⟨_, _, h⟩ := exists_of_bind_eq_ok h
  obtain ⟨pairs, hpairs, h⟩ := exists_of_bind_eq_ok h
  split at h
  case isTrue => cases h
  case isFalse hnonneg =>
    obtain ⟨_, hcheck, h⟩ := exists_of_bind_eq_ok h
    obtain ⟨_, _, h⟩ := exists_of_bind_eq_ok h
    obtain rfl : _ = following :=
      (Prod.mk.inj (Prod.mk.inj (Except.ok.inj h)).2).2
    obtain ⟨count, rfl⟩ := Int.eq_ofNat_of_zero_le (Int.not_lt.1 hnonneg)
    obtain ⟨hatCount, hfits⟩ := hasAt_of_signedAt hpairs
    have hstart := le_of_signedAt hpairs
    have hle := le_of_checkTable (by decide) hstart hcheck
    have hspans :=
      Spans.lookupSwitch hat (tableAt_padding offset) hfits hatCount
    rw [Int.toNat_natCast] at hle ⊢
    refine ⟨?_, by omega⟩
    convert hspans using 1
    omega

theorem spans_of_wide {opcode base following : Nat} {operand : Operand}
    (hat : code.HasAt offset (bigEndian 1 0xc4)) (h : readForm pool code offset
      opcode .wide = .ok (base, operand, following)) :
    Spans code offset (offset + 1 + following) ∧ offset + 1 + following ≤
      code.size := by
  simp only [readForm] at h
  obtain ⟨widened, hwidened, h⟩ := exists_of_bind_eq_ok h
  obtain ⟨_, hslot, h⟩ := exists_of_bind_eq_ok h
  have hatWidened := (hasAt_of_wordAt hwidened).1
  split at h
  case isTrue heq =>
    obtain ⟨_, hamount, h⟩ := exists_of_bind_eq_ok h
    obtain rfl : 5 = following :=
      (Prod.mk.inj (Prod.mk.inj (Except.ok.inj h)).2).2
    obtain rfl := heq
    have hle := le_of_signedAt hamount
    exact ⟨.wideIncrement hat hatWidened, by omega⟩
  case isFalse =>
    split at h
    case isTrue htakes =>
      obtain rfl : 3 = following :=
        (Prod.mk.inj (Prod.mk.inj (Except.ok.inj h)).2).2
      have hle := le_of_wordAt hslot
      exact ⟨.wideSlot hat hatWidened (mem_slot_of_takesSlot htakes), by omega⟩
    case isFalse => cases h

/-- An instruction ends where the format says, and within the code unless bytes
are spare. -/
theorem spans_of_readInstruction
    (h : readInstruction pool code offset = .ok (i, stop)) :
    Spans code offset stop ∧
      (stop ≤ code.size ∨ i.HasSpareBytes ∧ offset + 3 ≤ code.size ∧
        stop = offset + 5) := by
  obtain ⟨opcode, form, following, hopcode, hform, hread, _, rfl⟩ :=
    exists_of_readInstruction h
  have hlt : opcode < 0xca :=
    Nat.lt_succ_of_le (Form.opcode_le_of_ofOpcode? hform)
  obtain ⟨hat, hbyte⟩ := hasAt_of_wordAt hopcode
  obtain ⟨htable, hlookup, hwide⟩ := opcode_of_form opcode hlt form hform
  cases hextent : form.extent? with
  | some extent =>
      obtain ⟨seen, length⟩ := extent
      have hwide : form ≠ .wide := by
        rintro rfl
        cases hextent
      obtain ⟨hfixed, hseen⟩ :=
        fixedLength?_of_extent? opcode hlt form hform _ hextent
      obtain ⟨hlength, hle⟩ :=
        extent_of_readForm hextent (le_of_wordAt hopcode) hread
      have hstop : offset + 1 + following = offset + length := by omega
      rw [hstop]
      refine ⟨.fixed hat hbyte hfixed, ?_⟩
      rcases hseen with hall | ⟨hsizes, hspare⟩
      · exact .inl (by dsimp only at hall; omega)
      · obtain ⟨rfl, rfl⟩ := Prod.mk.inj hsizes
        rw [← (kind_of_readForm hwide hread).1] at hspare
        exact .inr ⟨hspare, hle, rfl⟩
  | none =>
      cases form with
      | tableSwitch =>
          obtain ⟨hspans, hle⟩ := spans_of_tableSwitch (htable rfl ▸ hat) hread
          exact ⟨hspans, .inl hle⟩
      | lookupSwitch =>
          obtain ⟨hspans, hle⟩ :=
            spans_of_lookupSwitch (hlookup rfl ▸ hat) hread
          exact ⟨hspans, .inl hle⟩
      | wide =>
          obtain ⟨hspans, hle⟩ := spans_of_wide (hwide rfl ▸ hat) hread
          exact ⟨hspans, .inl hle⟩
      | _ => cases hextent

/-- The instructions of code cover it, and go beyond it only if the last one has
spare bytes. -/
theorem tiles_of_readInstructions
    {instructions : List Instruction} (hle : offset ≤ code.size)
    (h : readInstructions pool code offset = .ok instructions) :
    ∃ stop, Tiles code offset instructions stop ∧ (stop = code.size ∨
      ∃ last, instructions.getLast? = some last ∧ last.HasSpareBytes ∧
        last.offset + 3 ≤ code.size ∧ code.size < stop ∧
          stop = last.offset + 5) := by
  fun_induction readInstructions pool code offset generalizing instructions with
  | case1 offset hlt fault hfault => cases h
  | case2 offset hlt first stop hread ih =>
      obtain ⟨rest, hrest, rfl⟩ := map_eq_ok_iff.1 h
      obtain ⟨hspans, hstop⟩ := spans_of_readInstruction hread
      obtain ⟨_, _, _, _, _, _, rfl, _⟩ := exists_of_readInstruction hread
      by_cases hwithin : stop ≤ code.size
      · obtain ⟨last, htiles, hend⟩ := ih hwithin hrest
        refine ⟨last, .cons hspans htiles, hend.imp_right ?_⟩
        rintro ⟨i, hi, hspare⟩
        exact ⟨i, by rw [List.getLast?_cons, hi]; rfl, hspare⟩
      · obtain ⟨hspare, hseen, hlength⟩ := hstop.resolve_left hwithin
        obtain rfl : [] = rest := by
          rw [readInstructions_of_le (by omega)] at hrest
          exact Except.ok.inj hrest
        exact ⟨stop, .cons hspans (.nil stop),
          .inr ⟨first, rfl, hspare, hseen, by omega, hlength⟩⟩
  | case3 offset hnot =>
      obtain rfl := Except.ok.inj h
      exact ⟨offset, .nil offset, .inl (by omega)⟩

end Code

end TestCost
