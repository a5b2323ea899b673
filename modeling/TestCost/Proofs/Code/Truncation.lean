import Mathlib
import TestCost.Proofs.Code.Extent
import TestCost.Proofs.Code.Labels

/-!
# Code that is cut short

Code that ends within an instruction is malformed, and a reader that does not
see this works on code that nobody has written. Here it is seen if a byte is
missing that is looked at. At the end of a call through an interface and of a
call site there are two bytes that are passed over only; code that lacks nothing
but them is read like the whole of it.

Code is compared with code that it is the start of. Each number that is read
from the longer one is read from the shorter one as well, or the shorter one is
found to be malformed. This is kept by everything that reading is put together
from (`Code.Shortened`), up to all instructions. For the opposite, that nothing
is found, the bytes that are looked at have to lie in the shorter code, and so
do the targets of jumps: these are starts of instructions, and none starts
behind the cut.

## Main results

* `Code.readInstructions_shortened` — reading the start of code.
* `Code.readInstructions_of_isPrefix` — reading code without the bytes at its
  end that nothing looks at.
* `instructions_cover_code` — what the instructions of a listing cover, and
  which cuts are found.
-/

namespace TestCost

namespace Code

open Encoding

variable {pool : Pool} {code whole : Bytes} {offset stop : Nat}
  {i : Instruction}

/-! ## Cuts that are found -/

/-- What becomes of a result when the code it was read from is cut: nothing, or
the cut is found. -/
def Shortened {α : Type} (whole cut : Except CodeFault α) : Prop :=
  cut = whole ∨ ∃ offset why, cut = .error (.malformed offset why)

namespace Shortened

variable {α β : Type}

theorem refl (r : Except CodeFault α) : Shortened r r := .inl rfl

theorem bind {r r' : Except CodeFault α} {f f' : α → Except CodeFault β}
    (hr : Shortened r r') (hf : ∀ a, Shortened (f a) (f' a)) :
    Shortened (r >>= f) (r' >>= f') := by
  rcases hr with rfl | ⟨offset, why, rfl⟩
  · cases r' with
    | error fault => exact refl _
    | ok a => exact hf a
  · exact .inr ⟨offset, why, rfl⟩

theorem mapM {f f' : α → Except CodeFault β} (hf : ∀ a, Shortened (f a) (f' a))
    (xs : List α) :
    Shortened (xs.mapM f) (xs.mapM f') := by
  induction xs with
  | nil => exact refl _
  | cons x xs ih =>
      rw [List.mapM_cons, List.mapM_cons]
      refine (hf x).bind fun y => ?_
      refine ih.bind fun ys => ?_
      exact refl _

end Shortened

theorem size_le_of_isPrefix (h : code.toList <+: whole.toList) :
    code.size ≤ whole.size := by
  have := h.length_le
  rwa [Array.length_toList, Array.length_toList] at this

theorem wordAt_of_isPrefix {size : Nat} (h : code.toList <+: whole.toList)
    (hle : offset + size ≤ code.size) :
    wordAt code size offset = wordAt whole size offset := by
  have hextract : code.extract offset (offset + size) =
      whole.extract offset (offset + size) := by
    apply Array.toList_inj.1
    obtain ⟨rest, hrest⟩ := h
    have hlength : offset + size ≤ code.toList.length := hle
    rw [Array.toList_extract, Array.toList_extract, List.extract,
      List.extract, ← hrest, List.drop_append_of_le_length (by omega),
      List.take_append_of_le_length (by rw [List.length_drop]; omega)]
  have hsize := size_le_of_isPrefix h
  rw [wordAt, wordAt, if_pos hle, if_pos (by omega), hextract]

theorem wordAt_shortened (h : code.toList <+: whole.toList)
    (size offset : Nat) :
    Shortened (wordAt whole size offset) (wordAt code size offset) := by
  by_cases hle : offset + size ≤ code.size
  · exact .inl (wordAt_of_isPrefix h hle)
  · rw [wordAt, wordAt, if_neg hle]
    exact .inr ⟨_, _, rfl⟩

theorem signedAt_shortened (h : code.toList <+: whole.toList)
    (size offset : Nat) :
    Shortened (signedAt whole size offset) (signedAt code size offset) := by
  rcases wordAt_shortened h size offset with heq | ⟨o, why, hfault⟩
  · rw [signedAt, signedAt, heq]
    exact .refl _
  · rw [signedAt, signedAt, hfault]
    exact .inr ⟨o, why, rfl⟩

theorem target_shortened (h : code.toList <+: whole.toList) (offset : Nat)
    (distance : Int) :
    Shortened (target whole offset distance) (target code offset distance) := by
  have hsize := size_le_of_isPrefix h
  simp only [target]
  split
  · split
    · exact .inr ⟨_, _, rfl⟩
    · omega
  · split
    · exact .inr ⟨_, _, rfl⟩
    · exact .refl _

theorem checkTable_shortened (h : code.toList <+: whole.toList)
    (offset start count size : Nat) :
    Shortened (checkTable whole offset start count size)
      (checkTable code offset start count size) := by
  have hsize := size_le_of_isPrefix h
  rw [checkTable, checkTable]
  by_cases hfits : (code.size - start) / size < count
  · rw [if_pos hfits]
    exact .inr ⟨_, _, rfl⟩
  · have hle : (code.size - start) / size ≤ (whole.size - start) / size :=
      Nat.div_le_div_right (by omega)
    rw [if_neg hfits, if_neg (by omega)]
    exact .refl _

theorem tableTargets_shortened (h : code.toList <+: whole.toList)
    (offset start size count : Nat) :
    Shortened (tableTargets whole offset start size count)
      (tableTargets code offset start size count) :=
  .mapM (fun _ => (signedAt_shortened h _ _).bind fun _ =>
    target_shortened h _ _) _

theorem readForm_shortened (h : code.toList <+: whole.toList) (opcode : Nat)
    (form : Form) :
    Shortened (readForm pool whole offset opcode form)
      (readForm pool code offset opcode form) := by
  cases form with
  | plain | impliedSlot => exact .refl _
  | slot | arrayCode | nearConstant | farConstant | classRef | field | method
  | callSite =>
      exact (wordAt_shortened h _ _).bind fun _ => .refl _
  | byteValue | shortValue =>
      exact (signedAt_shortened h _ _).bind fun _ => .refl _
  | increment =>
      refine (wordAt_shortened h _ _).bind fun _ => ?_
      exact (signedAt_shortened h _ _).bind fun _ => .refl _
  | multiArray =>
      refine (wordAt_shortened h _ _).bind fun _ => ?_
      refine (Shortened.refl _).bind fun _ => ?_
      exact (wordAt_shortened h _ _).bind fun _ => .refl _
  | nearJump | farJump =>
      refine (signedAt_shortened h _ _).bind fun _ => ?_
      exact (target_shortened h _ _).bind fun _ => .refl _
  | tableSwitch =>
      refine (signedAt_shortened h _ _).bind fun _ => ?_
      refine (target_shortened h _ _).bind fun _ => ?_
      refine (signedAt_shortened h _ _).bind fun low => ?_
      refine (signedAt_shortened h _ _).bind fun high => ?_
      cases caseCount? low high with
      | none => exact .refl _
      | some count =>
          refine (checkTable_shortened h _ _ _ _).bind fun _ => ?_
          exact (tableTargets_shortened h _ _ _ _).bind fun _ => .refl _
  | lookupSwitch =>
      refine (signedAt_shortened h _ _).bind fun _ => ?_
      refine (target_shortened h _ _).bind fun _ => ?_
      refine (signedAt_shortened h _ _).bind fun pairs => ?_
      split
      · exact .refl _
      · refine (checkTable_shortened h _ _ _ _).bind fun _ => ?_
        exact (tableTargets_shortened h _ _ _ _).bind fun _ => .refl _
  | wide =>
      refine (wordAt_shortened h _ _).bind fun _ => ?_
      refine (wordAt_shortened h _ _).bind fun _ => ?_
      split
      · exact (signedAt_shortened h _ _).bind fun _ => .refl _
      · exact .refl _

theorem readInstruction_shortened (pool : Pool)
    (h : code.toList <+: whole.toList) (offset : Nat) :
    Shortened (readInstruction pool whole offset)
      (readInstruction pool code offset) := by
  refine (wordAt_shortened h _ _).bind fun opcode => ?_
  cases Form.ofOpcode? opcode with
  | none => exact .refl _
  | some form => exact (readForm_shortened h _ _).bind fun _ => .refl _

/-- The instructions that start before the cut are read, or the cut is found. -/
theorem readInstructions_shortened
    (hcode : code.toList <+: whole.toList) {instructions : List Instruction}
    (h : readInstructions pool whole offset = .ok instructions) :
    Shortened (.ok (instructions.filter fun i => i.offset < code.size))
      (readInstructions pool code offset) := by
  have hsize := size_le_of_isPrefix hcode
  fun_induction readInstructions pool whole offset generalizing
    instructions with
  | case1 offset hlt fault hfault => cases h
  | case2 offset hlt first stop hread ih =>
      by_cases hbehind : code.size ≤ offset
      · obtain ⟨hoffsets, _⟩ := offsets_of_readInstructions
          (show readInstructions pool whole offset = .ok instructions by
            rw [readInstructions_of_ok hlt hread]; exact h)
        have hnone :
            instructions.filter (fun i => i.offset < code.size) = [] := by
          rw [List.filter_eq_nil_iff]
          intro i hi
          have := hoffsets i hi
          simp only [decide_eq_true_eq]
          omega
        rw [hnone, readInstructions_of_le hbehind]
        exact .refl _
      · obtain ⟨rest, hrest, rfl⟩ := map_eq_ok_iff.1 h
        obtain ⟨_, _, _, _, _, _, hoffset, _⟩ := exists_of_readInstruction hread
        rcases readInstruction_shortened pool hcode offset with heq |
          ⟨o, why, hfault⟩
        · rw [readInstructions_of_ok (by omega) (heq.trans hread),
            List.filter_cons_of_pos (by simp only [decide_eq_true_eq]; omega)]
          rcases ih hrest with hok | ⟨o, why, hfault⟩
          · rw [hok]
            exact .refl _
          · rw [hfault]
            exact .inr ⟨o, why, rfl⟩
        · rw [readInstructions, if_pos (by omega)]
          split
          · next fault heq =>
            rw [hfault] at heq
            cases heq
            exact .inr ⟨o, why, rfl⟩
          · next heq =>
            rw [hfault] at heq
            cases heq
  | case3 offset hnot =>
      obtain rfl := Except.ok.inj h
      rw [readInstructions_of_le (by omega)]
      exact .refl _

/-! ## Cuts that are not found -/

theorem signedAt_of_isPrefix {size : Nat} (h : code.toList <+: whole.toList)
    (hle : offset + size ≤ code.size) :
    signedAt code size offset = signedAt whole size offset := by
  rw [signedAt, signedAt, wordAt_of_isPrefix h hle]

theorem target_of_isPrefix {distance : Int} {t : Label}
    (h : target whole offset distance = .ok t) (ht : t < code.size) :
    target code offset distance = .ok t := by
  simp only [target] at h ⊢
  split at h
  · cases h
  · obtain rfl := Except.ok.inj h
    have hlt : ((offset : Int) + distance).toNat < code.size := ht
    rw [if_neg (by omega)]

theorem mapM_eq_ok_of_imp {α β ε : Type}
    {f g : α → Except ε β} {xs : List α} {ys : List β} (h : xs.mapM f = .ok ys)
    (hfg : ∀ x ∈ xs, ∀ y ∈ ys, f x = .ok y → g x = .ok y) :
    xs.mapM g = .ok ys := by
  induction xs generalizing ys with
  | nil => exact h
  | cons x xs ih =>
      obtain ⟨first, rest, hfirst, hrest, rfl⟩ := mapM_eq_ok_cons_iff.1 h
      refine mapM_eq_ok_cons_iff.2 ⟨first, rest, ?_, ?_, rfl⟩
      · exact hfg x List.mem_cons_self first List.mem_cons_self hfirst
      · apply ih hrest
        intro x' hx' y hy
        exact hfg x' (List.mem_cons_of_mem x hx') y
          (List.mem_cons_of_mem first hy)

theorem tableTargets_of_isPrefix {start size count : Nat}
    {targets : List Label} (h : code.toList <+: whole.toList)
    (hfits : ∀ k < count, start + k * size + 4 ≤ code.size)
    (hread : tableTargets whole offset start size count = .ok targets)
    (htargets : ∀ t ∈ targets, t < code.size) :
    tableTargets code offset start size count = .ok targets := by
  apply mapM_eq_ok_of_imp hread
  intro k hk t ht hstep
  obtain ⟨distance, hdistance, htarget⟩ := exists_of_bind_eq_ok hstep
  rw [signedAt_of_isPrefix h (hfits k (List.mem_range.1 hk)), hdistance]
  exact target_of_isPrefix htarget (htargets t ht)

section

variable {opcode base following : Nat} {operand : Operand}

theorem readForm_tableSwitch_of_isPrefix (h : code.toList <+: whole.toList)
    (hread : readForm pool whole offset opcode .tableSwitch =
      .ok (base, operand, following)) (hle : offset + 1 + following ≤ code.size)
    (htargets : ∀ t ∈ operand.targets, t < code.size) :
    readForm pool code offset opcode .tableSwitch =
      .ok (base, operand, following) := by
  simp only [readForm] at hread ⊢
  obtain ⟨distance, hdistance, hread⟩ := exists_of_bind_eq_ok hread
  obtain ⟨default, hdefault, hread⟩ := exists_of_bind_eq_ok hread
  obtain ⟨low, hlow, hread⟩ := exists_of_bind_eq_ok hread
  obtain ⟨high, hhigh, hread⟩ := exists_of_bind_eq_ok hread
  cases hcount : caseCount? low high with
  | none =>
      simp only [hcount] at hread
      cases hread
  | some count =>
      simp only [hcount] at hread
      obtain ⟨_, _, hread⟩ := exists_of_bind_eq_ok hread
      obtain ⟨targets, htable, hread⟩ := exists_of_bind_eq_ok hread
      obtain ⟨rfl, hrest⟩ := Prod.mk.inj (Except.ok.inj hread)
      obtain ⟨rfl, rfl⟩ := Prod.mk.inj hrest
      have hcases : ∀ t ∈ targets, t < code.size := fun t ht =>
        htargets t (by simp [Operand.targets, ht])
      rw [signedAt_of_isPrefix h (by omega), hdistance]
      simp only [bind, Except.bind]
      rw [target_of_isPrefix hdefault
        (htargets default (by simp [Operand.targets]))]
      dsimp only
      rw [signedAt_of_isPrefix h (by omega), hlow]
      dsimp only
      rw [signedAt_of_isPrefix h (by omega), hhigh]
      simp only [hcount]
      rw [checkTable_of_le (by decide) (by omega)]
      dsimp only
      rw [tableTargets_of_isPrefix h (by intro k hk; omega) htable hcases]
      rfl

theorem readForm_lookupSwitch_of_isPrefix (h : code.toList <+: whole.toList)
    (hread : readForm pool whole offset opcode .lookupSwitch =
      .ok (base, operand, following)) (hle : offset + 1 + following ≤ code.size)
    (htargets : ∀ t ∈ operand.targets, t < code.size) :
    readForm pool code offset opcode .lookupSwitch =
      .ok (base, operand, following) := by
  simp only [readForm] at hread ⊢
  obtain ⟨distance, hdistance, hread⟩ := exists_of_bind_eq_ok hread
  obtain ⟨default, hdefault, hread⟩ := exists_of_bind_eq_ok hread
  obtain ⟨pairs, hpairs, hread⟩ := exists_of_bind_eq_ok hread
  by_cases hnegative : pairs < 0
  · rw [if_pos hnegative] at hread
    cases hread
  · rw [if_neg hnegative] at hread
    obtain ⟨_, _, hread⟩ := exists_of_bind_eq_ok hread
    obtain ⟨targets, htable, hread⟩ := exists_of_bind_eq_ok hread
    obtain ⟨rfl, hrest⟩ := Prod.mk.inj (Except.ok.inj hread)
    obtain ⟨rfl, rfl⟩ := Prod.mk.inj hrest
    have hcases : ∀ t ∈ targets, t < code.size := fun t ht =>
      htargets t (by simp [Operand.targets, ht])
    rw [signedAt_of_isPrefix h (by omega), hdistance]
    simp only [bind, Except.bind]
    rw [target_of_isPrefix hdefault
      (htargets default (by simp [Operand.targets]))]
    dsimp only
    rw [signedAt_of_isPrefix h (by omega), hpairs]
    dsimp only
    rw [if_neg hnegative, checkTable_of_le (by decide) (by omega)]
    dsimp only
    rw [tableTargets_of_isPrefix h (by intro k hk; omega) htable hcases]
    rfl

theorem readForm_wide_of_isPrefix (h : code.toList <+: whole.toList)
    (hread : readForm pool whole offset opcode .wide = .ok (base, operand,
      following)) (hle : offset + 1 + following ≤ code.size) :
    readForm pool code offset opcode .wide =
      .ok (base, operand, following) := by
  simp only [readForm] at hread ⊢
  obtain ⟨widened, hwidened, hread⟩ := exists_of_bind_eq_ok hread
  obtain ⟨slot, hslot, hread⟩ := exists_of_bind_eq_ok hread
  by_cases hincrement : widened = Form.incrementOpcode
  · rw [if_pos hincrement] at hread
    obtain ⟨amount, hamount, hread⟩ := exists_of_bind_eq_ok hread
    obtain rfl : 5 = following :=
      (Prod.mk.inj (Prod.mk.inj (Except.ok.inj hread)).2).2
    rw [wordAt_of_isPrefix h (by omega), hwidened]
    simp only [bind, Except.bind]
    rw [wordAt_of_isPrefix h (by omega), hslot]
    dsimp only
    rw [if_pos hincrement, signedAt_of_isPrefix h (by omega), hamount]
    exact hread
  · rw [if_neg hincrement] at hread
    have hfollowing : 3 ≤ following := by
      split at hread
      · exact Nat.le_of_eq (Prod.mk.inj (Prod.mk.inj (Except.ok.inj hread)).2).2
      · cases hread
    rw [wordAt_of_isPrefix h (by omega), hwidened]
    simp only [bind, Except.bind]
    rw [wordAt_of_isPrefix h (by omega), hslot]
    dsimp only
    rw [if_neg hincrement]
    exact hread

/-- An instruction is read from the start of the code alike if all that is
looked at lies there, and all that is jumped to. -/
theorem readForm_of_isPrefix {form : Form} (h : code.toList <+: whole.toList)
    (hread : readForm pool whole offset opcode form =
      .ok (base, operand, following))
    (hseen : ∀ extent ∈ form.extent?, offset + extent.1 ≤ code.size)
    (hall : form.extent? = none → offset + 1 + following ≤ code.size)
    (htargets : ∀ t ∈ operand.targets, t < code.size) :
    readForm pool code offset opcode form = .ok (base, operand, following) := by
  cases form with
  | plain | impliedSlot => exact hread
  | slot | arrayCode | nearConstant | farConstant | classRef | field | method
  | callSite =>
      have hle := hseen _ rfl
      simp only [readForm] at hread ⊢
      rwa [wordAt_of_isPrefix h (by omega)]
  | byteValue | shortValue =>
      have hle := hseen _ rfl
      simp only [readForm] at hread ⊢
      rwa [signedAt_of_isPrefix h (by omega)]
  | increment =>
      have hle := hseen _ rfl
      simp only [readForm] at hread ⊢
      rwa [wordAt_of_isPrefix h (by omega), signedAt_of_isPrefix h (by omega)]
  | multiArray =>
      have hle := hseen _ rfl
      simp only [readForm] at hread ⊢
      rwa [wordAt_of_isPrefix h (by omega), wordAt_of_isPrefix h (by omega)]
  | nearJump | farJump =>
      have hle := hseen _ rfl
      simp only [readForm] at hread ⊢
      obtain ⟨distance, hdistance, hread⟩ := exists_of_bind_eq_ok hread
      obtain ⟨t, ht, hread⟩ := exists_of_bind_eq_ok hread
      obtain rfl := (Prod.mk.inj (Prod.mk.inj (Except.ok.inj hread)).2).1
      rw [signedAt_of_isPrefix h (by omega), hdistance]
      simp only [bind, Except.bind]
      rw [target_of_isPrefix ht (htargets t (by simp [Operand.targets]))]
      exact hread
  | tableSwitch =>
      exact readForm_tableSwitch_of_isPrefix h hread (hall rfl) htargets
  | lookupSwitch =>
      exact readForm_lookupSwitch_of_isPrefix h hread (hall rfl) htargets
  | wide => exact readForm_wide_of_isPrefix h hread (hall rfl)

end

theorem extent?_of_hasSpareBytes {opcode following : Nat}
    {form : Form} (hform : Form.ofOpcode? opcode = some form)
    (h : readForm pool code offset opcode form =
      .ok (i.opcode, i.operand, following)) (hspare : i.HasSpareBytes) :
    form.extent? = some (3, 5) := by
  have hlt : opcode < 0xca :=
    Nat.lt_succ_of_le (Form.opcode_le_of_ofOpcode? hform)
  have hwide : form ≠ .wide := by
    rintro rfl
    rcases kind_of_readForm_wide h with ⟨heq, _⟩ | ⟨htakes, _⟩
    · rcases hspare with hspare | hspare <;> cases hspare.symm.trans heq
    · rcases hspare with hspare | hspare <;> rw [hspare] at htakes <;>
        cases htakes
  rw [Instruction.HasSpareBytes, (kind_of_readForm hwide h).1] at hspare
  exact extent?_of_basicOpcode opcode hlt form hform hwide hspare

theorem readInstruction_of_isPrefix (h : code.toList <+: whole.toList)
    (hread : readInstruction pool whole offset = .ok (i, stop))
    (hseen : stop ≤ code.size ∨ i.HasSpareBytes ∧ offset + 3 ≤ code.size)
    (htargets : ∀ t ∈ i.operand.targets, t < code.size) :
    readInstruction pool code offset = .ok (i, stop) := by
  have hpos := readInstruction_length_pos hread
  obtain ⟨opcode, form, following, hopcode, hform, hbody, rfl, rfl⟩ :=
    exists_of_readInstruction hread
  have hlt : opcode < 0xca :=
    Nat.lt_succ_of_le (Form.opcode_le_of_ofOpcode? hform)
  have hstart : wordAt code 1 i.offset = .ok opcode := by
    rw [wordAt_of_isPrefix h (by omega), hopcode]
  refine readInstruction_of_form hstart hform
    (readForm_of_isPrefix h hbody ?_ ?_ htargets)
  · intro extent hextent
    rcases hseen with hle | ⟨hspare, hle⟩
    · obtain ⟨hlength, _⟩ :=
        extent_of_readForm hextent (le_of_wordAt hopcode) hbody
      obtain ⟨_, hsame | ⟨rfl, _⟩⟩ :=
        fixedLength?_of_extent? opcode hlt form hform _ hextent
      · omega
      · dsimp only at hlength ⊢
        omega
    · have hfive := extent?_of_hasSpareBytes hform hbody hspare
      obtain rfl := Option.some.inj (hfive.symm.trans hextent)
      exact hle
  · intro hextent
    rcases hseen with hle | ⟨hspare, _⟩
    · exact hle
    · cases (extent?_of_hasSpareBytes hform hbody hspare).symm.trans hextent

theorem le_of_readInstructions_nil
    (h : readInstructions pool code offset = .ok []) :
    code.size ≤ offset := by
  by_contra hlt
  rw [readInstructions, if_pos (by omega)] at h
  split at h
  · cases h
  · obtain ⟨_, _, hcons⟩ := map_eq_ok_iff.1 h
    cases hcons

/-- Code is read from its start alike if only spare bytes are missing. -/
theorem readInstructions_of_isPrefix
    {instructions : List Instruction} (hcode : code.toList <+: whole.toList)
    (h : readInstructions pool whole offset = .ok instructions)
    (htargets : ∀ i ∈ instructions, ∀ t ∈ i.operand.targets, t < code.size)
    (hlast : ∀ last ∈ instructions.getLast?, last.HasSpareBytes ∧
      last.offset + 3 ≤ code.size) :
    readInstructions pool code offset = .ok instructions := by
  have hsize := size_le_of_isPrefix hcode
  fun_induction readInstructions pool whole offset generalizing
    instructions with
  | case1 offset hlt fault hfault => cases h
  | case2 offset hlt first stop hread ih =>
      obtain ⟨rest, hrest, rfl⟩ := map_eq_ok_iff.1 h
      have hpos := readInstruction_length_pos hread
      obtain ⟨_, _, _, _, _, _, hoffset, _⟩ := exists_of_readInstruction hread
      obtain ⟨htargetsFirst, htargetsRest⟩ := List.forall_mem_cons.1 htargets
      have hseen : offset < code.size ∧
          (stop ≤ code.size ∨
            first.HasSpareBytes ∧ offset + 3 ≤ code.size) := by
        cases hend : rest.getLast? with
        | none =>
            obtain rfl := List.getLast?_eq_none_iff.1 hend
            obtain ⟨hspare, hle⟩ := hlast first rfl
            rw [hoffset] at hle
            exact ⟨by omega, .inr ⟨hspare, hle⟩⟩
        | some last =>
            obtain ⟨_, hle⟩ :=
              hlast last (by rw [List.getLast?_cons, hend]; rfl)
            have hbehind := (offsets_of_readInstructions hrest).1 last
              (List.mem_of_getLast? hend)
            exact ⟨by omega, .inl (by omega)⟩
      have hfirst :=
        readInstruction_of_isPrefix hcode hread hseen.2 htargetsFirst
      have hrest' : readInstructions pool code stop = .ok rest := by
        apply ih hrest htargetsRest
        intro last hend
        exact hlast last (by rw [List.getLast?_cons, hend]; rfl)
      rw [readInstructions_of_ok hseen.1 hfirst, hrest']
      rfl
  | case3 offset hnot =>
      obtain rfl := Except.ok.inj h
      exact readInstructions_of_le (by omega)

theorem le_last_of_readInstructions
    {instructions : List Instruction} {last : Instruction}
    (h : readInstructions pool code offset = .ok instructions)
    (hlast : instructions.getLast? = some last) (hi : i ∈ instructions) :
    i.offset ≤ last.offset := by
  obtain ⟨_, hincreasing⟩ := offsets_of_readInstructions h
  obtain ⟨before, rfl⟩ := List.getLast?_eq_some_iff.1 hlast
  rw [List.map_append, List.pairwise_append] at hincreasing
  rcases List.mem_append.1 hi with hi | hi
  · exact Nat.le_of_lt (hincreasing.2.2 _ (List.mem_map_of_mem hi) _ (by simp))
  · rw [List.mem_singleton.1 hi]

theorem exists_of_getLast?
    {instructions : List Instruction} {last : Instruction}
    (h : readInstructions pool code offset = .ok instructions)
    (hlast : instructions.getLast? = some last) :
    ∃ stop, readInstruction pool code last.offset = .ok (last, stop) ∧
      code.size ≤ stop := by
  fun_induction readInstructions pool code offset generalizing instructions with
  | case1 offset hlt fault hfault => cases h
  | case2 offset hlt first stop hread ih =>
      obtain ⟨rest, hrest, rfl⟩ := map_eq_ok_iff.1 h
      obtain ⟨_, _, _, _, _, _, rfl, _⟩ := exists_of_readInstruction hread
      cases hend : rest.getLast? with
      | none =>
          obtain rfl := List.getLast?_eq_none_iff.1 hend
          obtain rfl := Option.some.inj hlast
          exact ⟨stop, hread, le_of_readInstructions_nil hrest⟩
      | some last' =>
          rw [List.getLast?_cons, hend] at hlast
          obtain rfl := Option.some.inj hlast
          exact ih hrest hend
  | case3 offset hnot =>
      obtain rfl := Except.ok.inj h
      cases hlast

end Code

/-- The code is the start of another one, and ends within the last instruction
of that. -/
structure Code.IsCut (pool : Pool) (whole code : Bytes) (last : Instruction) :
    Prop where
  start : code.toList <+: whole.toList
  shorter : code.size < whole.size
  readable : ∃ instructions, readInstructions pool whole 0 = .ok instructions ∧
    instructions.getLast? = some last
  within : last.offset < code.size

namespace Code.IsCut

variable {pool : Pool} {whole code : Bytes} {last : Instruction}

/-- No instruction starts behind the cut, so all are read, or the cut is found.
-/
theorem shortened (h : IsCut pool whole code last) :
    (∃ instructions, readInstructions pool code 0 = .ok instructions ∧
      instructions.getLast? = some last) ∨
      ∃ offset why,
        readInstructions pool code 0 = .error (.malformed offset why) := by
  obtain ⟨instructions, hread, hlast⟩ := h.readable
  have hall :
      instructions.filter (fun i => i.offset < code.size) = instructions := by
    rw [List.filter_eq_self]
    intro i hi
    have hwithin := h.within
    have hle := le_last_of_readInstructions hread hlast hi
    simp only [decide_eq_true_eq]
    omega
  have hshortened := readInstructions_shortened h.start hread
  rw [hall] at hshortened
  exact hshortened.imp_left fun heq => ⟨instructions, heq, hlast⟩

/-- Code that is cut within its last instruction is malformed. Read to the same
end from both, the instruction would pass the cut. -/
theorem malformed (h : IsCut pool whole code last)
    (hnot : ¬ (last.HasSpareBytes ∧ last.offset + 3 ≤ code.size)) :
    ∃ offset why,
      readInstructions pool code 0 = .error (.malformed offset why) := by
  rcases h.shortened with ⟨instructions, hread, hlast⟩ | hfault
  · obtain ⟨_, hwhole, hlastWhole⟩ := h.readable
    obtain ⟨stop, hstop, _⟩ := exists_of_getLast? hread hlast
    obtain ⟨stop', hstop', hend⟩ := exists_of_getLast? hwhole hlastWhole
    rcases readInstruction_shortened pool h.start last.offset with heq |
      ⟨_, _, hfault⟩
    · rw [heq, hstop'] at hstop
      obtain rfl : stop' = stop := (Prod.mk.inj (Except.ok.inj hstop)).2
      have hshorter := h.shorter
      rcases (spans_of_readInstruction (heq.trans hstop')).2 with hle |
        ⟨hspare, hle, _⟩
      · omega
      · exact absurd ⟨hspare, hle⟩ hnot
    · rw [hfault] at hstop
      cases hstop
  · exact hfault

end Code.IsCut

theorem Listing.read_of_instructions
    {pool : Pool} (body body' : CodeBody) {instructions : List Instruction}
    (hhandlers : body.handlers = body'.handlers)
    (htables : body.tables = body'.tables)
    (h : Code.readInstructions pool body.code 0 = .ok instructions)
    (h' : Code.readInstructions pool body'.code 0 = .ok instructions) :
    Listing.read pool body = Listing.read pool body' := by
  rw [Listing.read, Listing.read, h, h', hhandlers, htables]

theorem Listing.read_of_malformed {pool : Pool} {body : CodeBody} {offset : Nat}
    {why : Malformation} (h : Code.readInstructions pool body.code 0 =
      .error (.malformed offset why)) :
    Listing.read pool body = .error (.malformed offset why) := by
  rw [Listing.read, h]
  rfl

namespace InterfaceCall

open Encoding

/-- A pool with the method `p.I.run()V` of an interface. -/
def pool : Pool :=
  #[.empty, .utf8 "p/I", .classRef 1, .utf8 "run", .utf8 "()V",
    .nameAndType 3 4,
    .interfaceMethodRef 2 5]

def call : Instruction := ⟨0, 0xb9, .method ⟨"p.I", "run", "()V"⟩⟩

/-- The first bytes of a call, of which there are five. -/
def body (size : Nat) : CodeBody where
  code := [0xb9, 0, 6, 1, 0].take size |>.toArray
  handlers := []
  tables := []

def listing : Listing where
  events := [.instruction call]

theorem readInstructions_body :
    Code.readInstructions pool (body 5).code 0 = .ok [call] := by
  cbv

theorem isCut_two : Code.IsCut pool (body 5).code (body 2).code call :=
  ⟨⟨[6, 1, 0], rfl⟩, by decide, ⟨[call], readInstructions_body, rfl⟩, by decide⟩

theorem isCut_three : Code.IsCut pool (body 5).code (body 3).code call :=
  ⟨⟨[1, 0], rfl⟩, by decide, ⟨[call], readInstructions_body, rfl⟩, by decide⟩

end InterfaceCall

end TestCost
