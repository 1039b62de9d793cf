import OsProjects.Kernel.Param
import OsProjects.Lib.FlatArray
import Mathlib.Data.List.GetD

/-!
# Dirent — names, path elements and the entries of a directory

A C string is the list of its bytes without the NUL; past its end a string reads as NUL.  The loops
over the entries of a directory run under its lock, so they scan one value of its content.
-/

namespace OsProjects.Kernel

open Lib List

/-! ## Strings -/

def strncmp : Nat → List UInt8 → List UInt8 → Int
  | 0, _, _ => 0
  | n + 1, p, q =>
    if p.headD 0 ≠ 0 ∧ p.headD 0 = q.headD 0 then strncmp n p.tail q.tail
    else (p.headD 0).toNat - (q.headD 0).toNat

def strncpy : Nat → List UInt8 → List UInt8
  | 0, _ => []
  | n + 1, t =>
    if t.headD 0 = 0 then List.replicate (n + 1) 0 else t.headD 0 :: strncpy n t.tail

/-- The string in a field of `n` bytes: up to its first NUL, or all of it. -/
def cstr : Nat → List UInt8 → List UInt8
  | 0, _ => []
  | n + 1, p => if p.headD 0 = 0 then [] else p.headD 0 :: cstr n p.tail

theorem strncmp_eq_zero (n : Nat) (p q : List UInt8) : strncmp n p q = 0 ↔ cstr n p = cstr n q := by
  induction n generalizing p q with
  | zero => simp only [strncmp, cstr]
  | succ n ih =>
    have hsub : ((p.headD 0).toNat : Int) - (q.headD 0).toNat = 0 ↔ p.headD 0 = q.headD 0 := by
      rw [← UInt8.toNat_inj]
      omega
    unfold strncmp cstr
    generalize p.headD 0 = x at hsub ⊢
    generalize q.headD 0 = y at hsub ⊢
    by_cases hx : x = 0
    · rw [if_neg (by simp [hx]), hsub, if_pos hx, hx]
      by_cases hy : y = 0
      · simp only [hy, if_true]
      · simp only [hy, if_false, Ne.symm hy, reduceCtorEq]
    · by_cases hxy : x = y
      · subst hxy
        rw [if_pos ⟨hx, rfl⟩, if_neg hx, if_neg hx, ih, cons_inj_right]
      · rw [if_neg (by simp [hxy]), hsub, if_neg hx]
        by_cases hy : y = 0
        · simp only [hy, if_true, hx, reduceCtorEq]
        · simp only [hy, if_false, hxy, List.cons.injEq, false_and]

@[simp] theorem length_strncpy (n : Nat) (t : List UInt8) : (strncpy n t).length = n := by
  induction n generalizing t with
  | zero => rfl
  | succ n ih =>
    unfold strncpy
    split
    · rw [length_replicate]
    · rw [length_cons, ih]

theorem cstr_strncpy (n : Nat) (t : List UInt8) : cstr n (strncpy n t) = cstr n t := by
  induction n generalizing t with
  | zero => rfl
  | succ n ih =>
    rw [strncpy, cstr, cstr]
    by_cases ht : t.headD 0 = 0
    · rw [if_pos ht, if_pos ht]
      rfl
    · rw [if_neg ht, if_neg ht, headD_cons, tail_cons, if_neg ht, ih]

def namecmp (s t : List UInt8) : Int := strncmp DIRSIZ s t

theorem namecmp_eq_zero {s t : List UInt8} : namecmp s t = 0 ↔ cstr DIRSIZ s = cstr DIRSIZ t :=
  strncmp_eq_zero DIRSIZ s t

/-! ## Paths -/

abbrev slash : UInt8 := 47

/-- The rest of the path and the next element, cut to `DIRSIZ` bytes; `none` is the null pointer. -/
def skipelem (path : List UInt8) : Option (List UInt8 × List UInt8) :=
  let path := path.dropWhile (· == slash)
  if path = [] then none
  else some ((path.dropWhile (· != slash)).dropWhile (· == slash),
    (path.takeWhile (· != slash)).take DIRSIZ)

variable {name : List UInt8} {de : Dirent}

theorem length_skipelem {path rest : List UInt8} (h : skipelem path = some (rest, name)) :
    rest.length < path.length := by
  unfold skipelem at h
  have hle := (dropWhile_suffix (fun c : UInt8 => c == slash) (l := path)).length_le
  have hhead := List.head?_dropWhile_not (fun c : UInt8 => c == slash) path
  generalize path.dropWhile (· == slash) = path1 at h hle hhead
  cases path1 with
  | nil => cases h
  | cons c cs =>
    -- the first byte is not a slash, so it belongs to the element
    have hc : c != slash := by simpa using hhead
    cases h
    rw [dropWhile_cons_of_pos (by exact hc)]
    have hsuffix1 := (dropWhile_suffix (fun c : UInt8 => c != slash) (l := cs)).length_le
    have hsuffix2 := (dropWhile_suffix (fun c : UInt8 => c == slash)
      (l := cs.dropWhile (· != slash))).length_le
    rw [length_cons] at hle
    omega

/-- The elements that `skipelem` gives one after the other; each is shorter by one byte at least. -/
def elemsUpTo : Nat → List UInt8 → List (List UInt8)
  | 0, _ => []
  | n + 1, path =>
    match skipelem path with
    | none => []
    | some (rest, name) => name :: elemsUpTo n rest

def elements (path : List UInt8) : List (List UInt8) := elemsUpTo path.length path

theorem elemsUpTo_eq {n m : Nat} {path : List UInt8} (hn : path.length ≤ n) (hm : path.length ≤ m) :
    elemsUpTo n path = elemsUpTo m path := by
  induction n generalizing m path with
  | zero =>
    obtain rfl := length_eq_zero_iff.mp (Nat.le_zero.mp hn)
    cases m <;> rfl
  | succ n ih =>
    cases m with
    | zero =>
      obtain rfl := length_eq_zero_iff.mp (Nat.le_zero.mp hm)
      rfl
    | succ m =>
      unfold elemsUpTo
      cases hskip : skipelem path with
      | none => rfl
      | some next =>
        have hlt := length_skipelem hskip
        simp only
        rw [ih (by omega) (by omega : next.1.length ≤ m)]

-- The elements are those of the loop `while((path = skipelem(path, name)) != 0)`.
theorem elements_eq (path : List UInt8) : elements path = match skipelem path with
      | none => []
      | some (rest, name) => name :: elements rest := by
  cases hskip : skipelem path with
  | none =>
    unfold elements
    cases path.length with
    | zero => rfl
    | succ n => simp only [elemsUpTo, hskip]
  | some next =>
    have hlt := length_skipelem hskip
    obtain ⟨n, hn⟩ : ∃ n, path.length = n + 1 := ⟨path.length - 1, by omega⟩
    show elemsUpTo path.length path = next.2 :: elements next.1
    rw [hn, elemsUpTo, hskip, elements]
    simp only
    rw [elemsUpTo_eq (by omega) le_rfl]

/-! ## Directory entries -/

abbrev SIZEOF_DIRENT : Nat := 16

structure Dirent where
  inum : Nat
  name : List UInt8
deriving DecidableEq

def Dirent.decode (bytes : List UInt8) : Dirent := ⟨leValue (bytes.take 2), bytes.drop 2⟩

def Dirent.encode (de : Dirent) : List UInt8 := leBytes 2 de.inum ++ de.name

/-- The `struct dirent` that `dirlink` fills in. -/
def direntFor (name : List UInt8) (inum : Nat) : Dirent := ⟨inum, strncpy DIRSIZ name⟩

/-- The zeroed `struct dirent` of `sys_unlink`. -/
def noDirent : Dirent := ⟨0, List.replicate DIRSIZ 0⟩

/-- An entry that a `struct dirent` can hold. -/
structure Dirent.Fits (de : Dirent) : Prop where
  inum : de.inum < 2 ^ 16
  name : de.name.length = DIRSIZ

theorem direntFor_fits {inum : Nat} (h : inum < 2 ^ 16) :
    (direntFor name inum).Fits := ⟨h, length_strncpy _ _⟩

theorem noDirent_fits : noDirent.Fits := ⟨by decide, by decide⟩

theorem Dirent.Fits.length_encode (h : de.Fits) : de.encode.length = SIZEOF_DIRENT := by
  rw [encode, length_append, length_leBytes, h.name]
  rfl

theorem Dirent.Fits.decode_encode (h : de.Fits) : decode de.encode = de := by
  have hlen := length_leBytes 2 de.inum
  have hinum : de.inum % 256 ^ 2 = de.inum := Nat.mod_eq_of_lt h.inum
  rw [decode, encode, take_append_of_le_length (by omega), take_of_length_le (by omega),
    leValue_leBytes, hinum, drop_append_of_le_length (by omega),
    drop_of_length_le (by omega), nil_append]

/-- The whole entries of a directory's content. -/
def entries (data : List UInt8) : List Dirent :=
  (List.range (data.length / SIZEOF_DIRENT)).map fun k =>
    .decode (FlatArray.read data (SIZEOF_DIRENT * k) SIZEOF_DIRENT)

@[simp] theorem length_entries (data : List UInt8) :
    (entries data).length = data.length / SIZEOF_DIRENT := by
  simp only [entries, length_map, length_range]

variable {data : List UInt8} {k : Nat} {p : Dirent → Bool} {es : List Dirent}

theorem getElem?_entries (hk : k < data.length / SIZEOF_DIRENT) :
    (entries data)[k]? =
      some (.decode (FlatArray.read data (SIZEOF_DIRENT * k) SIZEOF_DIRENT)) := by
  simp only [entries, List.getElem?_map, List.getElem?_range hk, Option.map_some]

-- Writing one entry's bytes at its place writes the entry.
theorem entries_write (hde : de.Fits)
    (halign : data.length % SIZEOF_DIRENT = 0) (hk : k ≤ (entries data).length) :
    entries (FlatArray.write data (SIZEOF_DIRENT * k) de.encode) =
      FlatArray.write (entries data) k [de] := by
  have henc := hde.length_encode
  rw [length_entries] at hk
  have hoff : SIZEOF_DIRENT * k ≤ data.length := by
    simp only [SIZEOF_DIRENT] at *
    omega
  have hlen := FlatArray.length_write data de.encode hoff
  have hlen' : (FlatArray.write (entries data) k [de]).length =
      (entries (FlatArray.write data (SIZEOF_DIRENT * k) de.encode)).length := by
    rw [FlatArray.length_write _ _ (by rwa [length_entries]), length_entries, length_entries, hlen,
      henc, length_singleton]
    simp only [SIZEOF_DIRENT] at *
    omega
  apply FlatArray.ext_getD noDirent hlen'.symm
  intro j hj
  rw [length_entries] at hj
  rw [FlatArray.getD_write _ _ (by rwa [length_entries]), length_singleton,
    getD_eq_getElem?_getD, getElem?_entries hj, Option.getD_some]
  by_cases hjk : j = k
  · subst hjk
    rw [if_pos (by omega), Nat.sub_self]
    have hread : FlatArray.read (FlatArray.write data (SIZEOF_DIRENT * j) de.encode)
        (SIZEOF_DIRENT * j) SIZEOF_DIRENT = de.encode := by
      apply FlatArray.ext_getD 0
      · rw [FlatArray.length_read, hlen, henc]
        omega
      · intro b hb
        rw [FlatArray.length_read, hlen, henc] at hb
        rw [FlatArray.getD_read _ _ _ _ (by omega), FlatArray.getD_write _ _ hoff,
          if_pos (by omega), Nat.add_sub_cancel_left]
    rw [hread, hde.decode_encode]
    rfl
  · -- another entry: none of its bytes lies in what was written
    have hj' : j < data.length / SIZEOF_DIRENT := by
      simp only [SIZEOF_DIRENT] at *
      omega
    rw [if_neg (by omega), getD_eq_getElem?_getD, getElem?_entries hj', Option.getD_some]
    congr 1
    apply FlatArray.ext_getD 0
    · rw [FlatArray.length_read, FlatArray.length_read, hlen, henc]
      simp only [SIZEOF_DIRENT] at *
      omega
    · intro b hb
      rw [FlatArray.length_read] at hb
      rw [FlatArray.getD_read _ _ _ _ (by omega), FlatArray.getD_read _ _ _ _ (by omega),
        FlatArray.getD_write _ _ hoff, henc, if_neg]
      simp only [SIZEOF_DIRENT] at *
      omega

/-! ## The scans -/

/-- The first entry from slot `k` on that satisfies `p`. -/
def findEntry (p : Dirent → Bool) : Nat → List Dirent → Option (Nat × Dirent)
  | _, [] => none
  | k, de :: rest => if p de then some (k, de) else findEntry p (k + 1) rest

theorem findEntry_some {j : Nat}
    (h : findEntry p k es = some (j, de)) : k ≤ j ∧ es[j - k]? = some de ∧ p de = true := by
  induction es generalizing k with
  | nil => cases h
  | cons e es ih =>
    unfold findEntry at h
    split at h
    next hp =>
      obtain ⟨rfl, rfl⟩ := Prod.mk.inj (Option.some.inj h)
      exact ⟨le_rfl, by simp, hp⟩
    · obtain ⟨hle, hget, hpde⟩ := ih h
      refine ⟨by omega, ?_, hpde⟩
      rw [show j - k = j - (k + 1) + 1 by omega, List.getElem?_cons_succ, hget]

theorem findEntry_none (h : findEntry p k es = none) : ∀ de ∈ es, p de = false := by
  induction es generalizing k with
  | nil => simp
  | cons e es ih =>
    unfold findEntry at h
    split at h
    · cases h
    next hp =>
      intro de hde
      rcases mem_cons.mp hde with rfl | hmem
      · simpa using hp
      · exact ih h de hmem

/-- The scan of `dirlookup`: the offset and the inode number of the entry called `name`.  An entry
cut short at the end of the file makes `readi` return too few bytes. -/
def lookupEntry (data name : List UInt8) : Except String (Option (Nat × Nat)) :=
  match findEntry (fun de => de.inum != 0 && namecmp name de.name == 0) 0 (entries data) with
  | some (k, de) => .ok (some (SIZEOF_DIRENT * k, de.inum))
  | none => if data.length % SIZEOF_DIRENT = 0 then .ok none else .error "dirlookup read"

/-- The scan of `dirlink`: the offset of the first empty entry, or the end of the file. -/
def freeSlot (data : List UInt8) : Except String Nat :=
  match findEntry (fun de => de.inum == 0) 0 (entries data) with
  | some (k, _) => .ok (SIZEOF_DIRENT * k)
  | none => if data.length % SIZEOF_DIRENT = 0 then .ok data.length else .error "dirlink read"

-- The scan starts behind the first two entries, whatever they are.
def isdirempty (data : List UInt8) : Except String Bool :=
  if ((entries data).drop 2).any (fun de => de.inum != 0) then .ok false
  else if 2 * SIZEOF_DIRENT < data.length ∧ data.length % SIZEOF_DIRENT ≠ 0 then
    .error "isdirempty: readi"
  else .ok true

theorem lookupEntry_some {off i : Nat} (h : lookupEntry data name = .ok (some (off, i))) :
    ∃ k de, off = SIZEOF_DIRENT * k ∧ (entries data)[k]? = some de ∧ de.inum = i ∧ i ≠ 0 ∧
      namecmp name de.name = 0 := by
  unfold lookupEntry at h
  cases hfind : findEntry (fun de => de.inum != 0 && namecmp name de.name == 0) 0
      (entries data) with
  | none =>
    rw [hfind] at h
    by_cases halign : data.length % SIZEOF_DIRENT = 0
    · simp [halign] at h
    · simp [halign] at h
  | some found =>
    obtain ⟨-, hget, hp⟩ := findEntry_some hfind
    simp only [hfind] at h
    cases h
    simp only [Bool.and_eq_true, bne_iff_ne, beq_iff_eq] at hp
    exact ⟨found.1, found.2, rfl, hget, rfl, hp.1, hp.2⟩

theorem lookupEntry_none (h : lookupEntry data name = .ok none) :
    ∀ de ∈ entries data, de.inum ≠ 0 → namecmp name de.name ≠ 0 := by
  unfold lookupEntry at h
  cases hfind : findEntry (fun de => de.inum != 0 && namecmp name de.name == 0) 0
      (entries data) with
  | some found => simp [hfind] at h
  | none =>
    intro de hde hne hcmp
    have hp := findEntry_none hfind de hde
    simp [hne, hcmp] at hp

theorem freeSlot_ok {off : Nat} (h : freeSlot data = .ok off) :
    ∃ k, off = SIZEOF_DIRENT * k ∧ k ≤ (entries data).length ∧
      ∀ de, (entries data)[k]? = some de → de.inum = 0 := by
  unfold freeSlot at h
  cases hfind : findEntry (fun de => de.inum == 0) 0 (entries data) with
  | some found =>
    obtain ⟨-, hget, hp⟩ := findEntry_some hfind
    simp only [hfind, Except.ok.injEq] at h
    obtain ⟨hlt, -⟩ := List.getElem?_eq_some_iff.mp hget
    refine ⟨found.1, h.symm, by omega, fun de hde => ?_⟩
    rw [Nat.sub_zero] at hget
    rw [hget, Option.some.injEq] at hde
    rw [← hde]
    simpa using hp
  | none =>
    by_cases halign : data.length % SIZEOF_DIRENT = 0
    · simp only [hfind, if_pos halign, Except.ok.injEq] at h
      refine ⟨data.length / SIZEOF_DIRENT, by simp only [SIZEOF_DIRENT] at *; omega,
        by rw [length_entries], ?_⟩
      intro de hde
      rw [List.getElem?_eq_none (by rw [length_entries])] at hde
      cases hde
    · simp [hfind, halign] at h

end OsProjects.Kernel
