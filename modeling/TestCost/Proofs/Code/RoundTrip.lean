import Mathlib
import TestCost.Proofs.Code.Encoding
import TestCost.Proofs.Code.Reading

/-!
# Reading undoes writing

Code that is written by the rules of the format is read back as the
instructions it was written from. How an instruction is written depends on
where it stands, and where the next one starts is known only once it has been
read, so nothing is said about bytes by themselves: `Bytes.HasAt` places them in
a code array, and every step of the reader is described by what the array has
at the reader's offset. Bytes that are placed can be taken apart
(`Bytes.HasAt.left`, `Bytes.HasAt.right`), down to single numbers and entries
of a table.

From there the proof follows the writing. A number, an entry of the pool and a
jump are read as what they stand for; each way to write an instruction is one
case; code is an induction on its layout. Labels and line numbers come between
the instructions of a listing and leave their order as it is.

## Main results

* `Bytes.HasAt.wordAt`, `Bytes.HasAt.signedAt` — numbers are read as written.
* `Code.readInstruction_of_written` — so are instructions, wherever they stand.
* `Code.readInstructions_of_layout` — so is code.
* `reading_undoes_writing` — a listing has the instructions of its code.
-/

namespace TestCost

/-! ## Numbers -/

@[simp] theorem length_bigEndian (size n : Nat) :
    (bigEndian size n).length = size := by
  induction size with
  | zero => rfl
  | succ size ih => simp [bigEndian, ih]

@[simp] theorem length_signedBytes (size : Nat) (v : Int) :
    (signedBytes size v).length = size :=
  length_bigEndian _ _

theorem foldl_bigEndian (size n start : Nat) :
    (bigEndian size n).foldl (fun n b => n * 256 + b.toNat) start =
      start * 256 ^ size + n % 256 ^ size := by
  induction size generalizing start with
  | zero => simp [bigEndian, Nat.mod_one]
  | succ size ih =>
      rw [bigEndian, List.foldl_cons, ih, Nat.pow_succ, Nat.mod_mul,
        UInt8.toNat_ofNat']
      ring

/-- A number that fits is spelled by its bytes. -/
theorem toNat_bigEndian {size n : Nat} (h : n < 256 ^ size) :
    Bytes.toNat (bigEndian size n).toArray = n := by
  rw [Bytes.toNat, List.foldl_toArray, foldl_bigEndian, Nat.mod_eq_of_lt h]
  simp

theorem signed_of_fits {size : Nat} {v : Int} (h : FitsSigned size v) :
    signed (8 * size) (v % (256 ^ size : Nat)).toNat = v := by
  have hpow : Nat.pow 2 (8 * size) = 256 ^ size := Nat.pow_mul 2 8 size
  have hpos : ((256 ^ size : Nat) : Int) ≠ 0 := by positivity
  rw [signed, hpow, Int.toNat_of_nonneg (Int.emod_nonneg v hpos), Int.emod_bmod]
  obtain ⟨hlow, hhigh⟩ := h
  apply Int.bmod_eq_of_le
  · omega
  · omega

/-! ## Bytes within code -/

/-- The code has these bytes at an offset. -/
def Bytes.HasAt (code : Bytes) (offset : Nat) (bytes : List UInt8) : Prop :=
  ∃ before after, code.toList = before ++ bytes ++ after ∧
    before.length = offset

theorem mapM_eq_ok_of_forall₂ {ε α β : Type} {f : α → Except ε β} {xs : List α}
    {ys : List β} (h : List.Forall₂ (fun x y => f x = .ok y) xs ys) :
    xs.mapM f = .ok ys := by
  induction h with
  | nil => rfl
  | cons hfirst _ ih => exact mapM_eq_ok_cons_iff.2 ⟨_, _, hfirst, ih, rfl⟩

namespace Bytes.HasAt

variable {code : Bytes} {offset : Nat} {bytes first second : List UInt8}

theorem left (h : code.HasAt offset (first ++ second)) :
    code.HasAt offset first := by
  obtain ⟨before, after, hcode, hbefore⟩ := h
  exact ⟨before, second ++ after, by simp [hcode], hbefore⟩

theorem right (h : code.HasAt offset (first ++ second)) :
    code.HasAt (offset + first.length) second := by
  obtain ⟨before, after, hcode, rfl⟩ := h
  exact ⟨before ++ first, after, by simp [hcode], by simp⟩

theorem le (h : code.HasAt offset bytes) :
    offset + bytes.length ≤ code.size := by
  obtain ⟨before, after, hcode, rfl⟩ := h
  rw [← Array.length_toList, hcode, List.length_append, List.length_append]
  omega

theorem extract (h : code.HasAt offset bytes) :
    code.extract offset (offset + bytes.length) = bytes.toArray := by
  obtain ⟨before, after, hcode, rfl⟩ := h
  apply Array.toList_inj.1
  simp [hcode, List.extract]

theorem wordAt {size n : Nat} (h : code.HasAt offset (bigEndian size n))
    (hn : n < 256 ^ size) :
    Code.wordAt code size offset = .ok n := by
  have hle := h.le
  have hextract := h.extract
  rw [length_bigEndian] at hle hextract
  rw [Code.wordAt, if_pos hle, hextract, toNat_bigEndian hn]

theorem signedAt {size : Nat} {v : Int}
    (h : code.HasAt offset (signedBytes size v)) (hv : FitsSigned size v) :
    Code.signedAt code size offset = .ok v := by
  have hlt : (v % (256 ^ size : Nat)).toNat < 256 ^ size := by
    have hpos : (0 : Int) < (256 ^ size : Nat) := by positivity
    have := Int.emod_lt_of_pos v hpos
    have := Int.emod_nonneg v (Int.ne_of_gt hpos)
    omega
  rw [Code.signedAt, wordAt h hlt]
  exact congrArg Except.ok (signed_of_fits hv)

/-- Entries of one size lie one after the other. -/
theorem flatMap
    {α : Type} {f : α → List UInt8} {size : Nat} (hf : ∀ a, (f a).length = size)
    {xs : List α} (h : code.HasAt offset (xs.flatMap f)) {k : Nat} {a : α}
    (hk : xs[k]? = some a) :
    code.HasAt (offset + k * size) (f a) := by
  induction xs generalizing offset k with
  | nil => simp at hk
  | cons x xs ih =>
      rw [List.flatMap_cons] at h
      cases k with
      | zero =>
          obtain rfl := Option.some.inj hk
          rw [Nat.zero_mul, Nat.add_zero]
          exact h.left
      | succ k =>
          have hrest := ih h.right hk
          rw [hf x] at hrest
          rwa [show offset + (k + 1) * size = offset + size + k * size by ring]

end Bytes.HasAt

/-! ## Entries of the pool -/

namespace Pool

variable {pool : Pool} {index : Nat} {name descriptor : String}
  {ref : MemberRef}

theorem HasText.utf8 {value : String} (h : pool.HasText index value) :
    pool.utf8 index = .ok value := by
  unfold Pool.utf8
  rw [h]

theorem HasClass.className (h : pool.HasClass index name) :
    pool.className index = .ok name := by
  obtain ⟨text, internal, hentry, htext, rfl⟩ := h
  unfold Pool.className
  rw [hentry]
  dsimp only
  rw [htext.utf8]
  rfl

theorem HasNameAndType.nameAndType
    (h : pool.HasNameAndType index name descriptor) :
    pool.nameAndType index = .ok (name, descriptor) := by
  obtain ⟨nameIndex, descriptorIndex, hentry, hname, hdescriptor⟩ := h
  unfold Pool.nameAndType
  rw [hentry]
  dsimp only
  rw [hname.utf8, hdescriptor.utf8]
  rfl

theorem HasParts.member
    {owner described : Nat} (h : pool.HasParts owner described ref)
    (hentry : pool[index]? = some (.fieldRef owner described) ∨
      pool[index]? = some (.methodRef owner described) ∨
      pool[index]? = some (.interfaceMethodRef owner described)) :
    pool.member index = .ok ref := by
  unfold Pool.member
  rcases hentry with hentry | hentry | hentry
  all_goals
    rw [hentry]
    dsimp only
    rw [h.2.nameAndType, h.1.className]
    rfl

theorem HasField.member (h : pool.HasField index ref) :
    pool.member index = .ok ref := by
  obtain ⟨owner, described, hentry, hparts⟩ := h
  exact hparts.member (.inl hentry)

theorem HasMethod.member (h : pool.HasMethod index ref) :
    pool.member index = .ok ref := by
  obtain ⟨owner, described, hentry, hparts⟩ := h
  exact hparts.member (.inr hentry)

theorem HasCallSite.callSite (h : pool.HasCallSite index name descriptor) :
    pool.callSite index = .ok (name, descriptor) := by
  obtain ⟨bootstrap, described, hentry, hdescribed⟩ := h
  unfold Pool.callSite
  rw [hentry]
  exact hdescribed.nameAndType

theorem HasConstant.loadable {c : Constant} (h : pool.HasConstant index c) :
    pool.loadable index = .ok c := by
  unfold Pool.loadable
  cases h with
  | integer hentry | float hentry | long hentry | double hentry
  | methodHandle hentry =>
      rw [hentry]
  | string hentry htext | methodType hentry htext =>
      rw [hentry]
      dsimp only
      rw [htext.utf8]
      rfl
  | classRef hclass =>
      have hname := hclass.className
      obtain ⟨text, _, hentry, _⟩ := hclass
      rw [hentry]
      dsimp only
      rw [hname]
      rfl
  | dynamic hentry hdescribed htype =>
      rw [hentry]
      dsimp only
      rw [hdescribed.nameAndType]
      simp only [bind, Except.bind, htype]
      rfl

end Pool

/-! ## Jumps and tables -/

namespace Code

open Encoding

variable {pool : Pool} {code : Bytes} {offset start : Nat}

theorem target_of_lt {t : Nat} (h : t < code.size) :
    target code offset ((t : Int) - offset) = .ok t := by
  have hplace : (offset : Int) + ((t : Int) - offset) = t := by omega
  simp only [target, hplace]
  rw [if_neg (by omega), Int.toNat_natCast]

theorem checkTable_of_le {count entrySize : Nat} (hsize : 0 < entrySize)
    (h : start + count * entrySize ≤ code.size) :
    checkTable code offset start count entrySize = .ok () := by
  have hfits : ¬ (code.size - start) / entrySize < count := by
    rw [Nat.not_lt, Nat.le_div_iff_mul_le hsize]
    omega
  rw [checkTable, if_neg hfits]

/-- A table is read where its jumps are written. -/
theorem tableTargets_of_hasAt {entrySize : Nat} {targets : List Nat}
    (h : ∀ k t, targets[k]? = some t → code.HasAt (start + k * entrySize)
      (jumpBytes 4 offset t) ∧ Reaches 4 offset t ∧ t < code.size) :
    tableTargets code offset start entrySize targets.length = .ok targets := by
  apply mapM_eq_ok_of_forall₂
  rw [List.forall₂_iff_get]
  refine ⟨by simp, ?_⟩
  intro k _ hk
  obtain ⟨hat, hreaches, hlt⟩ := h k targets[k] (List.getElem?_eq_getElem hk)
  simp only [List.get_eq_getElem, List.getElem_range]
  rw [hat.signedAt hreaches]
  exact target_of_lt hlt

theorem caseCount?_of_lt {low : Int} {count : Nat} (h : count < Nat.pow 2 31) :
    caseCount? low (low + count - 1) = some count := by
  have hrange : low + (count : Int) - 1 - low = count - 1 := by omega
  simp only [caseCount?, hrange]
  rw [if_pos ⟨by omega, by omega⟩]
  congr 1
  omega

theorem length_of_aligns {padding : List UInt8} (h : Aligns offset padding) :
    padding.length = Code.padding offset := by
  obtain ⟨hlt, hmod⟩ := h
  simp only [Code.padding]
  omega

/-! ## Instructions -/

@[simp] theorem length_jumpBytes (size offset : Nat) (t : Label) :
    (jumpBytes size offset t).length = size :=
  length_signedBytes _ _

@[simp] theorem length_pairBytes (offset : Nat) (pair : Int × Label) :
    (pairBytes offset pair).length = 8 := by
  simp [pairBytes]

theorem length_flatMap_of_eq {α : Type} {f : α → List UInt8} {size : Nat}
    (hf : ∀ a, (f a).length = size) (xs : List α) :
    (xs.flatMap f).length = xs.length * size := by
  induction xs with
  | nil => simp
  | cons x xs ih =>
      rw [List.flatMap_cons, List.length_append, hf, ih, List.length_cons]
      ring

/-- An instruction is read from its opcode and from what its form makes of the
bytes after it. -/
theorem readInstruction_of_hasAt {opcode base : Nat} {form : Form}
    {operand : Operand}
    {rest : List UInt8} (hat : code.HasAt offset (bigEndian 1 opcode ++ rest))
    (hform : Form.ofOpcode? opcode = some form)
    (h : code.HasAt (offset + 1) rest → readForm pool code offset opcode form =
      .ok (base, operand, rest.length)) :
    readInstruction pool code offset =
      .ok (⟨offset, base, operand⟩,
        offset + (bigEndian 1 opcode ++ rest).length) := by
  have hle := Form.opcode_le_of_ofOpcode? hform
  have hopcode : wordAt code 1 offset = .ok opcode := hat.left.wordAt (by omega)
  rw [readInstruction_of_form hopcode hform (h hat.right), List.length_append,
    length_bigEndian, Nat.add_assoc]

theorem form_of_mem_plain :
    ∀ opcode ∈ plain, Form.ofOpcode? opcode = some .plain := by
  decide

theorem form_shortLoad :
    ∀ kind < 5, ∀ index < 4, Form.ofOpcode? (0x1a + 4 * kind + index) =
      some (.impliedSlot (0x15 + kind) index) := by
  decide

theorem form_shortStore :
    ∀ kind < 5, ∀ index < 4, Form.ofOpcode? (0x3b + 4 * kind + index) =
      some (.impliedSlot (0x36 + kind) index) := by
  decide

theorem form_of_mem_slot : ∀ opcode ∈ slot,
    Form.ofOpcode? opcode = some .slot ∧ Form.takesSlot opcode = true ∧
      opcode ≠ 0x84 ∧
      opcode < 256 := by
  decide

theorem form_of_mem_jump :
    ∀ opcode ∈ jump, Form.ofOpcode? opcode = some .nearJump := by
  decide

theorem form_of_mem_classRef :
    ∀ opcode ∈ classRef, Form.ofOpcode? opcode = some .classRef := by
  decide

theorem form_of_mem_field :
    ∀ opcode ∈ field, Form.ofOpcode? opcode = some .field := by
  decide

theorem form_of_mem_method :
    ∀ opcode ∈ method, Form.ofOpcode? opcode = some (.method 0) := by
  decide

theorem form_of_mem_farConstant : ∀ opcode ∈ opcodes 0x13 0x14,
    Form.ofOpcode? opcode = some (.farConstant 0x12) := by
  decide

/-- The reader refuses counts that its numbers cannot hold; the size of the code
rules them out. -/
theorem readForm_tableSwitch {padding : List UInt8} {low : Int}
    {default : Label} {cases : List Label} (haligns : Aligns offset padding)
    (hlow : FitsSigned 4 low) (hhigh : FitsSigned 4 (low + cases.length - 1))
    (hreaches : ∀ t ∈ default :: cases, Reaches 4 offset t) (hat : code.HasAt
      (offset + 1) (padding ++ tableBytes offset low default cases))
    (hsize : code.size < 2 ^ 32)
    (htargets : ∀ t ∈ default :: cases, t < code.size) :
    readForm pool code offset 0xaa .tableSwitch =
      .ok (0xaa, .switch default cases,
      (padding ++ tableBytes offset low default cases).length) := by
  have hpadding := length_of_aligns haligns
  have htable := hat.right
  rw [hpadding] at htable
  have hdefault := htable.left.signedAt (hreaches default List.mem_cons_self)
  have hlow : signedAt code 4 (offset + 1 + Code.padding offset + 4) =
      .ok low := htable.right.left.signedAt hlow
  have hhigh : signedAt code 4 (offset + 1 + Code.padding offset + 8) =
      .ok (low + cases.length - 1) := htable.right.right.left.signedAt hhigh
  have hcases : code.HasAt (offset + 1 + Code.padding offset + 12)
      (cases.flatMap (jumpBytes 4 offset)) := htable.right.right.right
  have hlength := length_flatMap_of_eq (length_jumpBytes 4 offset) cases
  have hle := hcases.le
  rw [hlength] at hle
  have hcount : cases.length < Nat.pow 2 31 := by
    show cases.length < 2 ^ 31
    omega
  have htargets' : tableTargets code offset
      (offset + 1 + Code.padding offset + 12) 4 cases.length = .ok cases := by
    apply tableTargets_of_hasAt
    intro k t hk
    have hmem := List.mem_cons_of_mem default (List.mem_of_getElem? hk)
    exact ⟨hcases.flatMap (length_jumpBytes 4 offset) hk, hreaches t hmem,
      htargets t hmem⟩
  simp only [readForm, bind, Except.bind, hdefault,
    target_of_lt (htargets default List.mem_cons_self), hlow, hhigh,
    caseCount?_of_lt hcount, checkTable_of_le (by decide) hle, htargets']
  simp only [pure, Except.pure, tableBytes, List.length_append,
    length_jumpBytes, length_signedBytes, hlength, hpadding]
  congr 3
  omega

theorem readForm_lookupSwitch
    {padding : List UInt8} {default : Label} {pairs : List (Int × Label)}
    (haligns : Aligns offset padding) (hreaches : Reaches 4 offset default)
    (hpairs : ∀ pair ∈ pairs, FitsSigned 4 pair.1 ∧ Reaches 4 offset pair.2)
    (hat : code.HasAt (offset + 1) (padding ++
      lookupBytes offset default pairs)) (hsize : code.size < 2 ^ 32)
    (htargets : ∀ t ∈ default :: pairs.map Prod.snd, t < code.size) :
    readForm pool code offset 0xab .lookupSwitch =
      .ok (0xab, .switch default (pairs.map Prod.snd),
      (padding ++ lookupBytes offset default pairs).length) := by
  have hpadding := length_of_aligns haligns
  have htable := hat.right
  rw [hpadding] at htable
  have hdefault := htable.left.signedAt hreaches
  have hentries : code.HasAt (offset + 1 + Code.padding offset + 8)
      (pairs.flatMap (pairBytes offset)) := htable.right.right
  have hlength := length_flatMap_of_eq (length_pairBytes offset) pairs
  have hle := hentries.le
  rw [hlength] at hle
  have hfits : FitsSigned 4 pairs.length := by
    constructor
    · omega
    · omega
  have hcount : signedAt code 4 (offset + 1 + Code.padding offset + 4) =
      .ok ↑pairs.length := htable.right.left.signedAt hfits
  have htargets' : tableTargets code offset (offset + 1 + Code.padding offset +
      12) 8 pairs.length = .ok (pairs.map Prod.snd) := by
    rw [← List.length_map (f := Prod.snd)]
    apply tableTargets_of_hasAt
    intro k t hk
    rw [List.getElem?_map, Option.map_eq_some_iff] at hk
    obtain ⟨pair, hpair, rfl⟩ := hk
    have hmem := List.mem_of_getElem? hpair
    have hjump := (hentries.flatMap (length_pairBytes offset) hpair).right
    rw [length_signedBytes] at hjump
    have htarget :=
      htargets pair.2 (List.mem_cons_of_mem _ (List.mem_map_of_mem hmem))
    refine ⟨?_, (hpairs pair hmem).2, htarget⟩
    rwa [show offset + 1 + Code.padding offset + 12 + k * 8 =
      offset + 1 + Code.padding offset + 8 + k * 8 + 4 by omega]
  simp only [readForm, bind, Except.bind, hdefault,
    target_of_lt (htargets default List.mem_cons_self), hcount]
  rw [if_neg (by omega), Int.toNat_natCast, checkTable_of_le (by decide) hle]
  simp only [htargets', pure, Except.pure, lookupBytes, List.length_append,
    length_jumpBytes, length_signedBytes, hlength, hpadding]
  congr 3
  omega

/-- What is written can be read. -/
theorem readInstruction_of_written {i : Instruction} {bytes : List UInt8}
    (h : Written pool i bytes) (hat : code.HasAt i.offset bytes)
    (hsize : code.size < 2 ^ 32)
    (htargets : ∀ t ∈ i.operand.targets, t < code.size) :
    readInstruction pool code i.offset = .ok (i, i.offset + bytes.length) := by
  cases h with
  | plain hopcode =>
      rw [← List.append_nil (bigEndian _ _)] at hat ⊢
      exact readInstruction_of_hasAt hat (form_of_mem_plain _ hopcode) fun _ =>
        rfl
  | shortLoad hkind hindex =>
      rw [← List.append_nil (bigEndian _ _)] at hat ⊢
      exact readInstruction_of_hasAt hat (form_shortLoad _ hkind _ hindex)
        fun _ => rfl
  | shortStore hkind hindex =>
      rw [← List.append_nil (bigEndian _ _)] at hat ⊢
      exact readInstruction_of_hasAt hat (form_shortStore _ hkind _ hindex)
        fun _ => rfl
  | slot hopcode hindex =>
      refine readInstruction_of_hasAt hat (form_of_mem_slot _ hopcode).1
        fun hrest => ?_
      rw [readForm, hrest.wordAt (by omega)]
      rfl
  | @wideSlot offset opcode index hopcode hindex =>
      obtain ⟨_, htakes, hne, hlt⟩ := form_of_mem_slot _ hopcode
      refine readInstruction_of_hasAt hat rfl fun hrest => ?_
      have hwidened : wordAt code 1 (offset + 1) = .ok opcode :=
        hrest.left.wordAt (by omega)
      have hslot : wordAt code 2 (offset + 2) = .ok index :=
        hrest.right.wordAt (by omega)
      rw [readForm, hwidened, hslot]
      simp only [bind, Except.bind, Form.incrementOpcode, if_neg hne,
        htakes, if_true]
      rfl
  | @increment offset index amount hindex hamount =>
      refine readInstruction_of_hasAt hat rfl fun hrest => ?_
      have hslot : wordAt code 1 (offset + 1) = .ok index :=
        hrest.left.wordAt (by omega)
      have hvalue : signedAt code 1 (offset + 2) = .ok amount :=
        hrest.right.signedAt hamount
      rw [readForm, hslot, hvalue]
      rfl
  | @wideIncrement offset index amount hindex hamount =>
      refine readInstruction_of_hasAt hat rfl fun hrest => ?_
      have hwidened : wordAt code 1 (offset + 1) = .ok 0x84 :=
        hrest.left.wordAt (by omega)
      have hslot : wordAt code 2 (offset + 2) = .ok index :=
        hrest.right.left.wordAt (by omega)
      have hvalue : signedAt code 2 (offset + 4) = .ok amount :=
        hrest.right.right.signedAt hamount
      rw [readForm, hwidened, hslot]
      simp only [bind, Except.bind, Form.incrementOpcode, if_true, hvalue]
      rfl
  | byteValue hvalue | shortValue hvalue =>
      refine readInstruction_of_hasAt hat rfl fun hrest => ?_
      rw [readForm, hrest.signedAt hvalue]
      rfl
  | newArray hcode =>
      refine readInstruction_of_hasAt hat rfl fun hrest => ?_
      rw [readForm, hrest.wordAt (by omega)]
      rfl
  | nearConstant hindex hconstant =>
      refine readInstruction_of_hasAt hat rfl fun hrest => ?_
      rw [readForm, hrest.wordAt (by omega)]
      simp only [bind, Except.bind, hconstant.loadable]
      rfl
  | farConstant hopcode hindex hconstant =>
      refine readInstruction_of_hasAt hat (form_of_mem_farConstant _ hopcode)
        fun hrest => ?_
      rw [readForm, hrest.wordAt (by omega)]
      simp only [bind, Except.bind, hconstant.loadable]
      rfl
  | classRef hopcode hindex hclass =>
      refine readInstruction_of_hasAt hat (form_of_mem_classRef _ hopcode)
        fun hrest => ?_
      rw [readForm, hrest.wordAt (by omega)]
      simp only [bind, Except.bind, hclass.className]
      rfl
  | field hopcode hindex hmember =>
      refine readInstruction_of_hasAt hat (form_of_mem_field _ hopcode)
        fun hrest => ?_
      rw [readForm, hrest.wordAt (by omega)]
      simp only [bind, Except.bind, hmember.member]
      rfl
  | method hopcode hindex hmember =>
      refine readInstruction_of_hasAt hat (form_of_mem_method _ hopcode)
        fun hrest => ?_
      rw [readForm, hrest.wordAt (by omega)]
      simp only [bind, Except.bind, hmember.member]
      rfl
  | interfaceMethod count zero hindex hmember =>
      refine readInstruction_of_hasAt hat rfl fun hrest => ?_
      rw [readForm, hrest.left.wordAt (by omega)]
      simp only [bind, Except.bind, hmember.member]
      rfl
  | callSite zero zero' hindex hsite =>
      refine readInstruction_of_hasAt hat rfl fun hrest => ?_
      rw [readForm, hrest.left.wordAt (by omega)]
      simp only [bind, Except.bind, hsite.callSite]
      rfl
  | @multiArray offset index dimensions name hindex hclass hdimensions =>
      refine readInstruction_of_hasAt hat rfl fun hrest => ?_
      have hcount : wordAt code 1 (offset + 3) = .ok dimensions :=
        hrest.right.wordAt (by omega)
      rw [readForm, hrest.left.wordAt (by omega)]
      simp only [bind, Except.bind, hclass.className, hcount]
      rfl
  | nearJump hopcode hreaches =>
      refine readInstruction_of_hasAt hat (form_of_mem_jump _ hopcode)
        fun hrest => ?_
      rw [readForm, hrest.signedAt hreaches]
      simp only [bind, Except.bind,
        target_of_lt (htargets _ List.mem_cons_self)]
      rfl
  | farGoto hreaches | farSubroutine hreaches =>
      refine readInstruction_of_hasAt hat rfl fun hrest => ?_
      rw [readForm, hrest.signedAt hreaches]
      simp only [bind, Except.bind,
        target_of_lt (htargets _ List.mem_cons_self)]
      rfl
  | tableSwitch haligns hlow hhigh hreaches =>
      exact readInstruction_of_hasAt hat rfl fun hrest =>
        readForm_tableSwitch haligns hlow hhigh hreaches hrest hsize htargets
  | lookupSwitch haligns hreaches hpairs =>
      exact readInstruction_of_hasAt hat rfl fun hrest =>
        readForm_lookupSwitch haligns hreaches hpairs hrest hsize htargets

/-! ## Code -/

theorem length_pos_of_written {i : Instruction} {bytes : List UInt8}
    (h : Written pool i bytes) : 0 < bytes.length := by
  cases h <;> simp

theorem offset_lt_of_layout {instructions : List Instruction}
    {bytes : List UInt8} (h : Layout pool offset instructions bytes)
    {i : Instruction} (hi : i ∈ instructions) :
    i.offset < offset + bytes.length := by
  induction h with
  | nil => cases hi
  | cons hwritten _ ih =>
      have hpos := length_pos_of_written hwritten
      rw [List.length_append]
      rcases List.mem_cons.1 hi with rfl | hi
      · omega
      · have := ih hi
        omega

/-- Code is read instruction by instruction, as it is laid out. -/
theorem readInstructions_of_layout {instructions : List Instruction}
    {bytes : List UInt8} (h : Layout pool offset instructions bytes)
    {before : List UInt8} (hcode : code.toList = before ++ bytes)
    (hbefore : before.length = offset) (hsize : code.size < 2 ^ 32)
    (htargets : ∀ i ∈ instructions, ∀ t ∈ i.operand.targets, t < code.size) :
    readInstructions pool code offset = .ok instructions := by
  induction h generalizing before with
  | nil offset =>
      apply readInstructions_of_le
      rw [← Array.length_toList, hcode, List.append_nil, hbefore]
  | @cons i instructions bytes rest hwritten _ ih =>
      have hat : code.HasAt i.offset bytes :=
        ⟨before, rest, by simp [hcode], hbefore⟩
      have hread := readInstruction_of_written hwritten hat hsize
        (htargets i List.mem_cons_self)
      have hpos := length_pos_of_written hwritten
      have hlt : i.offset < code.size := by
        have := hat.le
        omega
      have hrest : readInstructions pool code (i.offset + bytes.length) =
          .ok instructions := by
        have hcode' : code.toList = before ++ bytes ++ rest := by
          rw [hcode, List.append_assoc]
        apply ih hcode'
        · rw [List.length_append, hbefore]
        · intro j hj
          exact htargets j (List.mem_cons_of_mem _ hj)
      rw [readInstructions_of_ok hlt hread, hrest]
      rfl

end Code

/-! ## Listings -/

/-- The instruction of an event. -/
def CodeEvent.instruction? : CodeEvent → Option Instruction
  | .instruction i => some i
  | .label _ | .line _ => none

namespace Listing

theorem filterMap_eventsOf (labels : List Label) (lines : List LineEntry)
    (i : Instruction) :
    (eventsOf labels lines i).filterMap CodeEvent.instruction? = [i] := by
  have hlabels : (if labels.contains i.offset then [CodeEvent.label i.offset]
      else []).filterMap CodeEvent.instruction? = [] := by
    split <;> rfl
  have hlines : ((lineAt? lines i.offset).map CodeEvent.line).toList.filterMap
      CodeEvent.instruction? = [] := by
    cases lineAt? lines i.offset <;> rfl
  rw [eventsOf, List.filterMap_append, List.filterMap_append, hlabels, hlines]
  rfl

theorem filterMap_events (labels : List Label) (lines : List LineEntry)
    (instructions : List Instruction) :
    (instructions.flatMap (eventsOf labels lines)).filterMap
      CodeEvent.instruction? =
      instructions := by
  induction instructions with
  | nil => rfl
  | cons i instructions ih =>
      rw [List.flatMap_cons, List.filterMap_append, filterMap_eventsOf, ih]
      rfl

theorem strayLabel?_eq_none {instructions : List Instruction}
    {labels : List Label}
    (h : ∀ label ∈ labels, ∃ i ∈ instructions, i.offset = label) :
    strayLabel? instructions labels = none := by
  have hnone : labels.filter (fun label =>
      !(instructions.map Instruction.offset).contains label) = [] := by
    rw [List.filter_eq_nil_iff]
    intro label hlabel
    obtain ⟨i, hi, rfl⟩ := h label hlabel
    simpa using ⟨i, hi, rfl⟩
  rw [strayLabel?, hnone]
  rfl

end Listing

open Encoding

/-- **Reading undoes writing.** Code that is laid out by the rules of the
format, with jumps to starts of instructions, can be read, and its listing has
the instructions of the code in order. -/
theorem reading_undoes_writing {pool : Pool} {instructions : List Instruction}
    {bytes : List UInt8} (hlayout : Layout pool 0 instructions bytes)
    (hsize : bytes.length < 2 ^ 32) (htargets : ∀ i ∈ instructions,
      ∀ t ∈ i.operand.targets, ∃ j ∈ instructions, j.offset = t)
    {tables : List DebugTable} (hnames : ∀ entry ∈ Listing.localEntries tables,
      (∃ name, pool.HasText entry.name name) ∧
      ∃ descriptor, pool.HasText entry.descriptor descriptor) :
    ∃ listing, Listing.read pool
      { code := bytes.toArray, handlers := [], tables } = .ok listing ∧
      listing.events.filterMap CodeEvent.instruction? = instructions := by
  have hinside : ∀ i ∈ instructions, ∀ t ∈ i.operand.targets,
      t < bytes.toArray.size := by
    intro i hi t ht
    obtain ⟨j, hj, rfl⟩ := htargets i hi t ht
    have := Code.offset_lt_of_layout hlayout hj
    rwa [Nat.zero_add] at this
  have hinstructions : Code.readInstructions pool bytes.toArray 0 =
      .ok instructions := Code.readInstructions_of_layout hlayout
    (List.nil_append bytes).symm rfl hsize hinside
  have hstray : Listing.strayLabel? instructions
      (Listing.labels instructions []) = none := by
    apply Listing.strayLabel?_eq_none
    intro label hlabel
    rw [Listing.labels, List.flatMap_nil, List.append_nil,
      List.mem_flatMap] at hlabel
    obtain ⟨i, hi, ht⟩ := hlabel
    exact htargets i hi label ht
  obtain ⟨names, hnames⟩ : ∃ names,
    (Listing.localEntries tables).mapM (Listing.readName pool) = .ok names := by
    apply exists_mapM_eq_ok
    intro entry hentry
    obtain ⟨⟨name, hname⟩, descriptor, hdescriptor⟩ := hnames entry hentry
    rw [Listing.readName, hname.utf8, hdescriptor.utf8]
    exact ⟨_, rfl⟩
  exact ⟨_, Listing.read_of_parts hinstructions rfl hstray hnames,
    Listing.filterMap_events _ _ _⟩

namespace Sample

/-- A pool with the field `p.A.X` of type `int`. -/
def pool : Pool :=
  #[.empty, .utf8 "p/A", .classRef 1, .utf8 "X", .utf8 "I", .nameAndType 3 4,
    .fieldRef 2 5]

/-- Instructions in a short form, with padding, in a wide form, with a far jump
backwards, with an entry of the pool, and with nothing of all that. -/
def instructions : List Instruction :=
  [⟨0, 0x15, .slot 2⟩, ⟨1, 0xaa, .switch 35 [24, 38]⟩,
    ⟨24, 0x84, .increment 300 (-2)⟩,
   ⟨30, 0xa7, .jump 0⟩, ⟨35, 0xb2, .field ⟨"p.A", "X", "I"⟩⟩, ⟨38, 0xb1, .none⟩]

def bytes : List UInt8 :=
  [0x1c,
   0xaa, 0, 0, 0, 0, 0, 34, 0xff, 0xff, 0xff, 0xff, 0, 0, 0, 0, 0, 0, 0, 23,
     0, 0, 0, 37,
   0xc4, 0x84, 0x01, 0x2c, 0xff, 0xfe,
   0xc8, 0xff, 0xff, 0xff, 0xe2,
   0xb2, 0, 6,
   0xb1]

theorem layout_bytes : Layout pool 0 instructions bytes := by
  have hload : Written pool ⟨0, 0x15 + 0, .slot 2⟩
      (bigEndian 1 (0x1a + 4 * 0 + 2)) := .shortLoad (by decide) (by decide)
  have hswitch : Written pool ⟨1, 0xaa, .switch 35 [24, 38]⟩
      (bigEndian 1 0xaa ++ ([0, 0] ++ tableBytes 1 (-1) 35 [24, 38])) :=
    .tableSwitch (by unfold Aligns; decide) (by decide) (by decide)
    (by unfold Reaches; decide)
  have hincrement : Written pool ⟨24, 0x84, .increment 300 (-2)⟩ (bigEndian 1
      0xc4 ++ (bigEndian 1 0x84 ++ (bigEndian 2 300 ++ signedBytes 2 (-2)))) :=
    .wideIncrement (by decide) (by decide)
  have hgoto : Written pool ⟨30, 0xa7, .jump 0⟩ (bigEndian 1 0xc8 ++
      jumpBytes 4 30 0) := .farGoto (by unfold Reaches; decide)
  have hfield : Written pool ⟨35, 0xb2, .field ⟨"p.A", "X", "I"⟩⟩
      (bigEndian 1 0xb2 ++ bigEndian 2 6) :=
    .field (by decide) (by decide)
      ⟨2, 5, rfl, ⟨1, "p/A", rfl, rfl, by decide⟩, 3, 4, rfl, rfl, rfl⟩
  have hreturn : Written pool ⟨38, 0xb1, .none⟩ (bigEndian 1 0xb1) :=
    .plain (by decide)
  exact .cons hload (.cons hswitch (.cons hincrement (.cons hgoto (.cons hfield
    (.cons hreturn (.nil 39))))))

theorem reading_undoes_writing_sample :
    ∃ listing, Listing.read pool
      { code := bytes.toArray, handlers := [], tables := [] } =
        .ok listing ∧
      listing.events.filterMap CodeEvent.instruction? = instructions := by
  apply reading_undoes_writing layout_bytes (by decide)
  · unfold instructions
    simp [Operand.targets]
  · simp [Listing.localEntries]

end Sample

end TestCost
