import Mathlib
import TestCost.Class.Loading
import TestCost.Proofs.Except

/-!
# Loaded classes

What every class that has been loaded from bytes is known to satisfy, whatever
the bytes are. The class depends on the bytes alone: the name it is asked for by
only words faults. A class file counts its methods in two bytes, which bounds
their number, and names its superclass through the pool, which gives the dotted
form.

## Main results

* `ClassModel.parse_irrelevant` — the requested name does not matter.
* `ClassModel.length_methods_lt` — a class has fewer than `2 ^ 16` methods.
* `ClassModel.exists_method_of_parse`, `ClassModel.exists_decode_of_loadMethod`
  — where the methods come from.
-/

namespace TestCost

namespace Bytes

theorem foldl_lt (bytes : List UInt8) (n : Nat) :
    bytes.foldl (fun n b => n * 256 + b.toNat) n <
      (n + 1) * 256 ^ bytes.length := by
  induction bytes generalizing n with
  | nil => simp
  | cons b bytes ih =>
      have hb : b.toNat < 256 := b.toNat_lt
      have hstep := ih (n * 256 + b.toNat)
      have hle : n * 256 + b.toNat + 1 ≤ (n + 1) * 256 := by omega
      have hmul := Nat.mul_le_mul_right (256 ^ bytes.length) hle
      have hpow : (n + 1) * 256 * 256 ^ bytes.length =
          (n + 1) * 256 ^ (bytes.length + 1) := by
        rw [Nat.pow_succ, Nat.mul_assoc, Nat.mul_comm 256]
      simp only [List.foldl_cons, List.length_cons]
      omega

theorem toNat_lt (bytes : Bytes) : bytes.toNat < 256 ^ bytes.size := by
  have h := foldl_lt bytes.toList 0
  rw [Array.foldl_toList, Array.length_toList, Nat.zero_add, Nat.one_mul] at h
  exact h

end Bytes

namespace ClassFile

namespace Reader

variable {α β : Type} {file : Bytes} {position stop : Nat}

theorem exists_of_bind {item : Reader α} {next : α → Reader β} {b : β}
    (h : (item >>= next) file position = .ok (b, stop)) :
    ∃ a mid,
      item file position = .ok (a, mid) ∧ next a file mid = .ok (b, stop) := by
  obtain ⟨⟨a, mid⟩, hitem, hnext⟩ := exists_of_bind_eq_ok h
  exact ⟨a, mid, hitem, hnext⟩

theorem size_of_take {size : Nat} {fault : Nat → Nat → Fault} {bytes : Bytes}
    (h : take size fault file position = .ok (bytes, stop)) :
    bytes.size = size := by
  obtain ⟨f, mid, hread, h⟩ := exists_of_bind h
  obtain ⟨rfl, rfl⟩ := Prod.mk.inj (Except.ok.inj hread)
  obtain ⟨p, mid, hget, h⟩ := exists_of_bind h
  obtain ⟨rfl, rfl⟩ := Prod.mk.inj (Except.ok.inj hget)
  split at h
  · next hfits =>
    obtain ⟨_, _, _, h⟩ := exists_of_bind h
    obtain ⟨rfl, _⟩ := Prod.mk.inj (Except.ok.inj h)
    rw [Array.size_extract]
    omega
  · cases h

theorem integer_lt {size n : Nat}
    (h : integer size file position = .ok (n, stop)) :
    n < 256 ^ size := by
  obtain ⟨⟨bytes, mid⟩, hbytes, h⟩ := exists_of_bind_eq_ok h
  obtain ⟨rfl, _⟩ := Prod.mk.inj (Except.ok.inj h)
  rw [← size_of_take hbytes]
  exact Bytes.toNat_lt bytes

theorem length_of_times {item : Reader α} {count : Nat} {items : List α}
    (h : times item count file position = .ok (items, stop)) :
    items.length = count := by
  induction count generalizing position items stop with
  | zero =>
      obtain ⟨rfl, _⟩ := Prod.mk.inj (Except.ok.inj h)
      rfl
  | succ count ih =>
      obtain ⟨first, mid, _, h⟩ := exists_of_bind h
      obtain ⟨rest, mid', hrest, h⟩ := exists_of_bind h
      obtain ⟨rfl, _⟩ := Prod.mk.inj (Except.ok.inj h)
      rw [List.length_cons, ih hrest]

theorem length_listOf_lt {item : Reader α} {items : List α}
    (h : listOf item file position = .ok (items, stop)) :
    items.length < 2 ^ 16 := by
  obtain ⟨count, mid, hcount, h⟩ := exists_of_bind h
  rw [length_of_times h]
  exact integer_lt hcount

end Reader

/-- The methods are read behind version, pool, flags, class, superclass,
interfaces and fields; their number takes two bytes. -/
theorem length_methods_lt {bytes : Bytes} {file : ClassFile}
    (hparse : parse bytes = .ok file) :
    file.methods.length < 2 ^ 16 := by
  obtain ⟨⟨_, stop⟩, h, rfl⟩ := map_eq_ok_iff.1 hparse
  obtain ⟨mark, _, _, h⟩ := Reader.exists_of_bind h
  by_cases hmark : mark = magic
  · rw [if_pos hmark] at h
    obtain ⟨_, _, _, h⟩ := Reader.exists_of_bind h
    obtain ⟨_, _, _, h⟩ := Reader.exists_of_bind h
    obtain ⟨_, _, _, h⟩ := Reader.exists_of_bind h
    obtain ⟨_, _, _, h⟩ := Reader.exists_of_bind h
    obtain ⟨_, _, _, h⟩ := Reader.exists_of_bind h
    obtain ⟨_, _, _, h⟩ := Reader.exists_of_bind h
    obtain ⟨_, _, _, h⟩ := Reader.exists_of_bind h
    obtain ⟨methods, _, hmethods, h⟩ := Reader.exists_of_bind h
    obtain ⟨_, _, _, h⟩ := Reader.exists_of_bind h
    obtain ⟨_, _, _, h⟩ := Reader.exists_of_bind h
    obtain ⟨rfl, _⟩ := Prod.mk.inj (Except.ok.inj h)
    exact Reader.length_listOf_lt hmethods
  · rw [if_neg hmark] at h
    obtain ⟨_, _, hfail, _⟩ := Reader.exists_of_bind h
    cases hfail

end ClassFile

deriving instance DecidableEq for PoolEntry, DebugTable, CodeBody, Attribute,
  MemberEntry, ClassFile

namespace ClassModel

variable {requested : String} {bytes : Bytes} {c : ClassModel}

theorem exists_file_of_parse (h : parse requested bytes = .ok c) :
    ∃ file, ClassFile.parse bytes = .ok file ∧ ofClassFile file = .ok c := by
  obtain ⟨file, hfile, hclass⟩ := exists_of_bind_eq_ok h
  exact ⟨file, mapError_eq_ok_iff.1 hfile, hclass⟩

theorem parse_of_file
    {file : ClassFile} (hfile : (ClassFile.parse bytes).toOption = some file)
    (hclass : ofClassFile file = .ok c) (requested : String) :
    parse requested bytes = .ok c := by
  unfold parse
  rw [toOption_eq_some_iff.1 hfile]
  exact hclass

/-- The name that a class is asked for by has no part in the class. -/
theorem parse_irrelevant (h : parse requested bytes = .ok c) (other : String) :
    parse other bytes = .ok c := by
  obtain ⟨file, hfile, hclass⟩ := exists_file_of_parse h
  exact parse_of_file (toOption_eq_some_iff.2 hfile) hclass other

/-- The class with the fields and methods of a class file, once its names are
known. -/
def withMembers (file : ClassFile) (name : String) (superName : Option String) :
    Except LoadFault ClassModel := do
  let fields ← (file.fields.mapM (loadField file.pool name)).mapError
    .declaration
  let methods ← file.methods.mapM (loadMethod file.pool name)
  return { name, superName, fields, methods }

/-- Where the parts of a class come from. -/
theorem exists_of_ofClassFile {file : ClassFile}
    (h : ofClassFile file = .ok c) :
    file.pool.className file.thisClass = .ok c.name ∧
      (∀ parent, c.superName = some parent →
        file.pool.className file.superClass = .ok parent) ∧
      (file.superClass = 0 → c.superName = none) ∧
      file.fields.mapM (loadField file.pool c.name) = .ok c.fields ∧
      file.methods.mapM (loadMethod file.pool c.name) = .ok c.methods := by
  obtain ⟨name, hname, h⟩ := exists_of_bind_eq_ok h
  obtain ⟨superName, hsuper, h⟩ : ∃ superName,
    (if file.superClass = 0 then superName = none else ∃ parent, superName =
    some parent ∧ file.pool.className file.superClass = .ok parent) ∧
    withMembers file name superName = .ok c := by
    by_cases hzero : file.superClass = 0
    · rw [if_pos hzero] at h
      exact ⟨none, by rw [if_pos hzero], h⟩
    · rw [if_neg hzero] at h
      obtain ⟨superName, hsuper, h⟩ := exists_of_bind_eq_ok h
      obtain ⟨parent, hparent, rfl⟩ :=
        map_eq_ok_iff.1 (mapError_eq_ok_iff.1 hsuper)
      exact ⟨some parent, by rw [if_neg hzero]; exact ⟨parent, rfl, hparent⟩, h⟩
  obtain ⟨fields, hfields, h⟩ := exists_of_bind_eq_ok h
  obtain ⟨methods, hmethods, h⟩ := exists_of_bind_eq_ok h
  obtain rfl := Except.ok.inj h
  refine ⟨mapError_eq_ok_iff.1 hname, ?_, ?_,
    mapError_eq_ok_iff.1 hfields, hmethods⟩
  · intro parent hparent
    split at hsuper
    · exact absurd (hsuper.symm.trans hparent) (by simp)
    · obtain ⟨found, hsome, hfound⟩ := hsuper
      obtain rfl := Option.some.inj (hsome.symm.trans hparent)
      exact hfound
  · intro hzero
    rwa [if_pos hzero] at hsuper

theorem length_methods_lt (h : parse requested bytes = .ok c) :
    c.methods.length < 2 ^ 16 := by
  obtain ⟨file, hfile, hclass⟩ := exists_file_of_parse h
  obtain ⟨_, _, _, _, hmethods⟩ := exists_of_ofClassFile hclass
  rw [length_of_mapM_eq_ok hmethods]
  exact ClassFile.length_methods_lt hfile

theorem exists_method_of_parse (h : parse requested bytes = .ok c) {m : Method}
    (hm : m ∈ c.methods) :
    ∃ pool entry, loadMethod pool c.name entry = .ok m := by
  obtain ⟨file, _, hclass⟩ := exists_file_of_parse h
  obtain ⟨_, _, _, _, hmethods⟩ := exists_of_ofClassFile hclass
  obtain ⟨entry, _, hentry⟩ := exists_of_mem_mapM hmethods hm
  exact ⟨file.pool, entry, hentry⟩

/-- A method is decoded from what its entry declares and the listing of its
body. -/
theorem exists_decode_of_loadMethod {pool : Pool} {owner : String}
    {entry : MemberEntry} {m : Method}
    (h : loadMethod pool owner entry = .ok m) :
    ∃ header listing, header.owner = owner ∧
      Method.decode header listing = .ok m ∧
      ∀ found, listing = some found → ∃ body,
        Listing.read pool body = .ok found := by
  obtain ⟨header, hheader, h⟩ := exists_of_bind_eq_ok h
  have howner : header.owner = owner := by
    obtain ⟨name, _, hheader⟩ :=
      exists_of_bind_eq_ok (mapError_eq_ok_iff.1 hheader)
    obtain ⟨descriptor, _, hheader⟩ := exists_of_bind_eq_ok hheader
    obtain rfl := Except.ok.inj hheader
    rfl
  cases hbody : entry.bodies.head? with
  | none =>
      rw [hbody] at h
      exact ⟨header, none, howner, h, by simp⟩
  | some body =>
      rw [hbody] at h
      obtain ⟨listing, hread, h⟩ := exists_of_bind_eq_ok h
      obtain ⟨found, hfound, rfl⟩ :=
        map_eq_ok_iff.1 (mapError_eq_ok_iff.1 hread)
      refine ⟨header, some found, howner, h, ?_⟩
      rintro _ ⟨⟩
      exact ⟨body, hfound⟩

/-! ## Faults of loading -/

theorem missingClass?_of_decode
    {header : MethodHeader} {listing : Option Listing} {fault : LoadFault}
    (h : Method.decode header listing = .error fault) :
    fault.missingClass? = none := by
  rcases eq_error_of_bind_eq_error h with h | ⟨type, h⟩
  · obtain ⟨_, _, rfl⟩ := mapError_eq_error_iff.1 h
    rfl
  · rcases eq_error_of_bind_eq_error h with h | ⟨body, h⟩
    · obtain ⟨_, _, rfl⟩ := mapError_eq_error_iff.1 h
      rfl
    · rcases eq_error_of_bind_eq_error h with h | ⟨_, h⟩
      · obtain ⟨_, _, rfl⟩ := mapError_eq_error_iff.1 h
        rfl
      · cases h

theorem missingClass?_of_loadMethod
    {pool : Pool} {owner : String} {entry : MemberEntry} {fault : LoadFault}
    (h : loadMethod pool owner entry = .error fault) :
    fault.missingClass? = none := by
  rcases eq_error_of_bind_eq_error h with h | ⟨header, h⟩
  · obtain ⟨_, _, rfl⟩ := mapError_eq_error_iff.1 h
    rfl
  · cases hbody : entry.bodies.head? with
    | none =>
        rw [hbody] at h
        exact missingClass?_of_decode h
    | some body =>
        rw [hbody] at h
        rcases eq_error_of_bind_eq_error h with h | ⟨listing, h⟩
        · obtain ⟨_, _, rfl⟩ := mapError_eq_error_iff.1 h
          rfl
        · exact missingClass?_of_decode h

/-- A file that is no class is no missing class. -/
theorem missingClass?_of_parse {requested : String} {bytes : Bytes}
    {fault : LoadFault} (h : parse requested bytes = .error fault) :
    fault.missingClass? = none := by
  rcases eq_error_of_bind_eq_error h with h | ⟨file, h⟩
  · obtain ⟨_, _, rfl⟩ := mapError_eq_error_iff.1 h
    rfl
  · rcases eq_error_of_bind_eq_error h with h | ⟨name, h⟩
    · obtain ⟨_, _, rfl⟩ := mapError_eq_error_iff.1 h
      rfl
    · obtain h | ⟨superName, h⟩ : (∃ e, fault = .declaration e) ∨
          ∃ superName, withMembers file name superName = .error fault := by
        by_cases hzero : file.superClass = 0
        · rw [if_pos hzero] at h
          exact .inr ⟨none, h⟩
        · rw [if_neg hzero] at h
          rcases eq_error_of_bind_eq_error h with h | ⟨superName, h⟩
          · obtain ⟨e, _, rfl⟩ := mapError_eq_error_iff.1 h
            exact .inl ⟨e, rfl⟩
          · exact .inr ⟨superName, h⟩
      · obtain ⟨_, rfl⟩ := h
        rfl
      · rcases eq_error_of_bind_eq_error h with h | ⟨_, h⟩
        · obtain ⟨_, _, rfl⟩ := mapError_eq_error_iff.1 h
          rfl
        · rcases eq_error_of_bind_eq_error h with h | ⟨_, h⟩
          · obtain ⟨entry, _, hentry⟩ := exists_of_mapM_eq_error h
            exact missingClass?_of_loadMethod hentry
          · cases h

end ClassModel

end TestCost
