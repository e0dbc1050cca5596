import Mathlib.Algebra.Group.Nat.Defs
import Mathlib.Data.List.Induction
import SmallC.Registry

/-!
# The numbers of files

A registry finds the number of a path by searching its paths. It may as well keep an index from
paths to numbers of 32 bits beside them, which has to go along with the paths whatever files are
registered and whenever the registry is cleared. Here it is shown that the two stay inverse to
each other, and that both kinds of registries hand out the same numbers.
-/

namespace SmallC

/-- A registry with an index of its paths. -/
structure IndexedRegistry where
  /-- The first spelling of each path, in the order of the numbers. -/
  paths : Array Path
  /-- The numbers of the paths. -/
  numbers : List (Path × UInt32)

namespace IndexedRegistry

/-- No files. -/
def empty : IndexedRegistry := ⟨#[], []⟩

/-- The number of files. -/
def size (r : IndexedRegistry) : Nat := r.paths.size

/-- The number of a path in the index. -/
def number? (r : IndexedRegistry) (p : Path) : Option UInt32 :=
  (r.numbers.find? fun e => decide (e.1.Same p)).map (·.2)

/-- The number of the next path. -/
def next (r : IndexedRegistry) : UInt32 := UInt32.ofNat r.size

/-- One more path, which gets the next number. -/
def add (r : IndexedRegistry) (p : Path) : IndexedRegistry :=
  ⟨r.paths.push p, (p, r.next) :: r.numbers⟩

/-- The number of a path, which is registered if it was not before. -/
def register (r : IndexedRegistry) (p : Path) : IndexedRegistry × UInt32 :=
  match r.number? p with
  | some id => (r, id)
  | none => (r.add p, r.next)

/-- The path of a number, if there is one. -/
def path? (r : IndexedRegistry) (id : UInt32) : Option Path := r.paths[id.toNat]?

/-- The numbers with their paths. -/
def entries (r : IndexedRegistry) : List (UInt32 × Path) :=
  r.paths.toList.zipIdx.map fun (p, i) => (UInt32.ofNat i, p)

end IndexedRegistry

/-! ## Calls -/

/-- What is asked of a registry. -/
inductive RegistryCall where
  | register (path : Path)
  | clear

namespace RegistryCall

variable {α β : Type}

/-- The paths that were registered since the registry was last cleared. -/
def registered (calls : List RegistryCall) : List Path :=
  calls.foldl (fun ps call =>
    match call with
    | .register p => ps ++ [p]
    | .clear => []) []

/-- The registry after some calls, and the numbers handed out since it was last cleared, where
`register` says what becomes of a registry and what number is handed out. -/
def outcome (empty : α) (register : α → Path → α × β) (calls : List RegistryCall) : α × List β :=
  calls.foldl (fun (r, ids) call =>
    match call with
    | .register p => ((register r p).1, ids ++ [(register r p).2])
    | .clear => (empty, [])) (empty, [])

/-- More paths that are registered come behind those that were registered before. -/
theorem registered_append (calls : List RegistryCall) (ps : List Path) :
    registered (calls ++ ps.map .register) = registered calls ++ ps := by
  induction ps using List.reverseRecOn with
  | nil => simp
  | append_singleton ps p ih =>
    rw [registered, List.map_append, ← List.append_assoc, List.foldl_append, ← registered, ih]
    exact List.append_assoc ..

/-- What was before a registry was last cleared does not matter. -/
theorem outcome_registered (empty : α) (register : α → Path → α × β)
    (calls : List RegistryCall) :
    outcome empty register ((registered calls).map .register) = outcome empty register calls := by
  induction calls using List.reverseRecOn with
  | nil => rfl
  | append_singleton calls call ih =>
    cases call with
    | register p =>
      have hregistered : registered (calls ++ [.register p]) = registered calls ++ [p] :=
        registered_append calls [p]
      rw [hregistered, List.map_append, outcome, List.foldl_append, ← outcome, ih, outcome, outcome,
        List.foldl_append]
      rfl
    | clear =>
      rw [registered, outcome, outcome, List.foldl_append, List.foldl_append]
      rfl

end RegistryCall

/-- A registry with an index after some calls, and the numbers handed out since it was last
cleared. -/
def IndexedRegistry.after (calls : List RegistryCall) : IndexedRegistry × List UInt32 :=
  RegistryCall.outcome empty register calls

/-- A registry after some calls, and the numbers handed out since it was last cleared. -/
def Registry.after (calls : List RegistryCall) : Registry × List Nat :=
  RegistryCall.outcome empty register calls

namespace IndexedRegistry

variable {r : IndexedRegistry} {ps : List Path} {ids : List UInt32} {p q : Path} {id : UInt32}

/-- The numbers `ids` were handed out for the paths `ps`, which were registered one after the
other, and the registry still knows them. -/
structure Numbers (r : IndexedRegistry) (ps : List Path) (ids : List UInt32) : Prop where
  /-- Each path has the number that was handed out for it. -/
  answers : ps.map r.number? = ids.map some
  /-- New numbers are handed out in order. -/
  order : ids.eraseDups = (List.range r.size).map UInt32.ofNat
  /-- The path of a number is the one that it was handed out for first. -/
  first : ∀ id q, r.path? id = some q → ∃ before later, ps = before ++ q :: later ∧
    ids[before.length]? = some id ∧ ∀ p ∈ before, ¬ p.Same q
  /-- The index and the paths are inverse to each other. -/
  inverse : ∀ p id, r.number? p = some id ↔ ∃ q, r.path? id = some q ∧ q.Same p

/-- In the empty registry nothing is numbered. -/
theorem numbers_empty : empty.Numbers [] [] where
  answers := rfl
  order := rfl
  first _ _ h := nomatch h
  inverse p id := by simp [number?, path?, empty]

/-- Spellings of the same path have the same number. -/
theorem number?_congr (r : IndexedRegistry) (h : p.Same q) : r.number? p = r.number? q := by
  have hsame (s : Path) : s.Same p ↔ s.Same q := ⟨fun hs => hs.trans h, fun hs => hs.trans h.symm⟩
  simp only [number?, hsame]

/-- A path that has a number gets it again, and nothing changes. -/
theorem register_of_some (h : r.number? p = some id) : r.register p = (r, id) := by
  simp only [register, h]

/-- A path that has none gets the next number. -/
theorem register_of_none (h : r.number? p = none) : r.register p = (r.add p, r.next) := by
  simp only [register, h]

/-- Numbers with a path are below the size. -/
theorem lt_size_of_path? (h : r.path? id = some q) : id.toNat < r.size :=
  (Array.getElem?_eq_some_iff.mp h).1

/-- One more path makes the registry larger by one. -/
theorem size_add (r : IndexedRegistry) (p : Path) : (r.add p).size = r.size + 1 :=
  Array.size_push ..

/-- The next number is the size, as long as there are numbers left. -/
theorem toNat_next (hsize : r.size < 2 ^ 32) : r.next.toNat = r.size := by
  rw [next, UInt32.toNat_ofNat', Nat.mod_eq_of_lt hsize]

/-- The next number stands for the path that was added, and all others stand for what they did. -/
theorem path?_add (hsize : r.size < 2 ^ 32) (p : Path) (id : UInt32) :
    (r.add p).path? id = if id = r.next then some p else r.path? id := by
  have hid : id = r.next ↔ id.toNat = r.paths.size := by
    rw [← UInt32.toNat_inj, toNat_next hsize]
    rfl
  simp only [path?, add, Array.getElem?_push, hid]

/-- The path that was added is found by any path that names the same. -/
theorem number?_add (r : IndexedRegistry) (p q : Path) :
    (r.add p).number? q = if p.Same q then some r.next else r.number? q := by
  by_cases h : p.Same q <;> simp [number?, add, h]

namespace Numbers

/-- The numbers that were handed out are those below the size. -/
theorem mem_iff (h : r.Numbers ps ids) (hsize : r.size ≤ 2 ^ 32) :
    id ∈ ids ↔ id.toNat < r.size := by
  rw [← List.mem_eraseDups, h.order, List.mem_map]
  constructor
  · rintro ⟨n, hn, rfl⟩
    have hn := List.mem_range.mp hn
    rw [UInt32.toNat_ofNat', Nat.mod_eq_of_lt (by omega)]
    exact hn
  · intro hid
    exact ⟨id.toNat, List.mem_range.mpr hid, UInt32.ofNat_toNat⟩

/-- Each call was answered by one number. -/
theorem length_eq (h : r.Numbers ps ids) : ps.length = ids.length := by
  simpa using congrArg List.length h.answers

/-- A path that was registered has a number. -/
theorem exists_number (h : r.Numbers ps ids) (hp : p ∈ ps) : ∃ id, r.number? p = some id := by
  have hmem : r.number? p ∈ ids.map some := h.answers ▸ List.mem_map_of_mem hp
  obtain ⟨id, -, hid⟩ := List.mem_map.mp hmem
  exact ⟨id, hid.symm⟩

/-- A path that has a number is another one than a path that has none. -/
theorem not_same (hp : r.number? p = none) (hq : r.number? q = some id) : ¬ p.Same q := by
  intro hsame
  rw [r.number?_congr hsame, hq] at hp
  cases hp

/-- What is handed out again changes neither the registry nor the order of the numbers. -/
theorem again (h : r.Numbers ps ids) (hid : id ∈ ids) (hp : r.number? p = some id) :
    r.Numbers (ps ++ [p]) (ids ++ [id]) where
  answers := by
    rw [List.map_append, List.map_append, h.answers, List.map_singleton, hp]
    rfl
  order := by
    rw [List.eraseDups_append, ← h.order]
    simp [List.removeAll, hid]
  first id' q hq := by
    obtain ⟨before, later, rfl, hanswer, hbefore⟩ := h.first id' q hq
    refine ⟨before, later ++ [p], by simp, ?_, hbefore⟩
    rw [List.getElem?_append_left (List.getElem?_eq_some_iff.mp hanswer).1, hanswer]
  inverse := h.inverse

/-- A new path gets the next number. -/
theorem add (h : r.Numbers ps ids) (hsize : r.size < 2 ^ 32) (hp : r.number? p = none) :
    (r.add p).Numbers (ps ++ [p]) (ids ++ [r.next]) where
  answers := by
    have hold : ps.map (r.add p).number? = ps.map r.number? := by
      refine List.map_congr_left fun q hq => ?_
      obtain ⟨id, hid⟩ := h.exists_number hq
      rw [number?_add, if_neg (not_same hp hid)]
    have hnew : (r.add p).number? p = some r.next := by rw [number?_add, if_pos (.refl p)]
    rw [List.map_append, List.map_append, hold, h.answers, List.map_singleton, hnew]
    rfl
  order := by
    have hnew : r.next ∉ ids := by
      rw [h.mem_iff (Nat.le_of_lt hsize), toNat_next hsize]
      exact Nat.lt_irrefl _
    have hlast : [r.size].map UInt32.ofNat = [r.next] := rfl
    rw [List.eraseDups_append, h.order, size_add, List.range_succ, List.map_append, hlast]
    simp [List.removeAll, hnew, List.eraseDups_cons]
  first id q hq := by
    rw [path?_add hsize] at hq
    split at hq
    · rename_i hid
      obtain rfl := Option.some.inj hq
      refine ⟨ps, [], rfl, ?_, fun q hq hsame => ?_⟩
      · rw [h.length_eq, List.getElem?_append_right (Nat.le_refl _), Nat.sub_self, hid]
        rfl
      · obtain ⟨id, hid⟩ := h.exists_number hq
        exact not_same hp hid hsame.symm
    · obtain ⟨before, later, rfl, hanswer, hbefore⟩ := h.first id q hq
      refine ⟨before, later ++ [p], by simp, ?_, hbefore⟩
      rw [List.getElem?_append_left (List.getElem?_eq_some_iff.mp hanswer).1, hanswer]
  inverse q id := by
    rw [number?_add, path?_add hsize]
    by_cases hsame : p.Same q
    · rw [if_pos hsame]
      constructor
      · rintro ⟨⟩
        exact ⟨p, if_pos rfl, hsame⟩
      · rintro ⟨q', hq', hsame'⟩
        split at hq'
        · rename_i hid
          rw [hid]
        · have hq : r.number? q = some id := (h.inverse q id).mpr ⟨q', hq', hsame'⟩
          exact absurd hsame (not_same hp hq)
    · rw [if_neg hsame, h.inverse]
      refine exists_congr fun q' => and_congr_left fun hsame' => ?_
      split
      · rename_i hid
        constructor
        · intro hq'
          have hlt := lt_size_of_path? hq'
          rw [hid, toNat_next hsize] at hlt
          exact absurd hlt (Nat.lt_irrefl _)
        · rintro ⟨⟩
          exact absurd hsame' hsame
      · rfl

/-- Registering a path keeps all numbers, and hands out the next one if the path is new. -/
theorem register (h : r.Numbers ps ids) (hsize : (r.register p).1.size ≤ 2 ^ 32) :
    (r.register p).1.Numbers (ps ++ [p]) (ids ++ [(r.register p).2]) := by
  cases hp : r.number? p with
  | some id =>
    rw [register_of_some hp] at hsize ⊢
    obtain ⟨q, hq, -⟩ := (h.inverse p id).mp hp
    exact h.again ((h.mem_iff hsize).mpr (lt_size_of_path? hq)) hp
  | none =>
    rw [register_of_none hp] at hsize ⊢
    rw [size_add] at hsize
    exact h.add hsize hp

/-- Two paths were given the same number exactly if they are the same path. -/
theorem same_iff (h : r.Numbers ps ids) {i j : Nat} (hp : ps[i]? = some p) (hq : ps[j]? = some q) :
    ids[i]? = ids[j]? ↔ p.Same q := by
  have hanswer {i : Nat} {p : Path} (hp : ps[i]? = some p) :
      ∃ id, ids[i]? = some id ∧ r.number? p = some id := by
    have hi : (ps.map r.number?)[i]? = (ids.map some)[i]? := congrArg (·[i]?) h.answers
    rw [List.getElem?_map, hp, List.getElem?_map, Option.map_some, eq_comm,
      Option.map_eq_some_iff] at hi
    obtain ⟨id, hid, hnumber⟩ := hi
    exact ⟨id, hid, hnumber.symm⟩
  obtain ⟨id, hid, hp⟩ := hanswer hp
  obtain ⟨id', hid', hq⟩ := hanswer hq
  rw [hid, hid']
  constructor
  · rintro ⟨⟩
    obtain ⟨s, hs, hsp⟩ := (h.inverse p id).mp hp
    obtain ⟨s', hs', hsq⟩ := (h.inverse q id).mp hq
    obtain rfl := Option.some.inj (hs.symm.trans hs')
    exact hsp.symm.trans hsq
  · intro hsame
    rw [← hp, ← hq, r.number?_congr hsame]

/-- Searching the paths finds the number that the index has. -/
theorem find?_eq (h : r.Numbers ps ids) (hsize : r.size ≤ 2 ^ 32) (p : Path) :
    Registry.find? ⟨r.paths⟩ p = (r.number? p).map UInt32.toNat := by
  have hnumber {i : Nat} (hi : i < r.paths.size) (hsame : r.paths[i].Same p) :
      r.number? p = some (UInt32.ofNat i) := by
    refine (h.inverse p _).mpr ⟨r.paths[i], ?_, hsame⟩
    have hi' : i < r.size := hi
    rw [path?, UInt32.toNat_ofNat', Nat.mod_eq_of_lt (by omega), Array.getElem?_eq_getElem hi]
  cases hp : r.number? p with
  | none =>
    refine Array.findIdx?_eq_none_iff.mpr fun q hq => decide_eq_false fun hsame => ?_
    obtain ⟨i, hi, rfl⟩ := Array.mem_iff_getElem.mp hq
    rw [hnumber hi hsame] at hp
    cases hp
  | some id =>
    obtain ⟨q, hq, hsame⟩ := (h.inverse p id).mp hp
    obtain ⟨hlt, rfl⟩ := Array.getElem?_eq_some_iff.mp hq
    refine Array.findIdx?_eq_some_iff_getElem.mpr ⟨hlt, decide_eq_true hsame, fun j hj => ?_⟩
    have hj' : j < r.paths.size := Nat.lt_trans hj hlt
    simp only [Bool.not_eq_true, decide_eq_false_iff_not]
    intro hsame'
    have hid : id = UInt32.ofNat j := Option.some.inj (hp.symm.trans (hnumber hj' hsame'))
    have hsize' : r.paths.size ≤ 2 ^ 32 := hsize
    rw [hid, UInt32.toNat_ofNat', Nat.mod_eq_of_lt (by omega)] at hj
    exact Nat.lt_irrefl _ hj

/-- A path gets the same number with an index and without one. -/
theorem register_eq (h : r.Numbers ps ids) (hsize : (r.register p).1.size ≤ 2 ^ 32) :
    Registry.register ⟨r.paths⟩ p = (⟨(r.register p).1.paths⟩, (r.register p).2.toNat) := by
  cases hp : r.number? p with
  | some id =>
    rw [register_of_some hp] at hsize ⊢
    rw [Registry.register, h.find?_eq hsize, hp]
    rfl
  | none =>
    rw [register_of_none hp] at hsize ⊢
    rw [size_add] at hsize
    rw [Registry.register, h.find?_eq (Nat.le_of_lt hsize), hp, toNat_next hsize]
    rfl

end Numbers

/-- Registering makes the registry no smaller. -/
theorem size_register (r : IndexedRegistry) (p : Path) : r.size ≤ (r.register p).1.size := by
  cases hp : r.number? p with
  | some id => simp [register_of_some hp]
  | none => simp [register_of_none hp, size_add]

/-- A number keeps its path when other paths are registered. -/
theorem path?_register (h : r.path? id = some q) (p : Path) :
    (r.register p).1.path? id = some q := by
  cases hp : r.number? p with
  | some id => rwa [register_of_some hp]
  | none =>
    have hne : id.toNat ≠ r.paths.size := Nat.ne_of_lt (lt_size_of_path? h)
    rw [register_of_none hp]
    simpa [path?, add, Array.getElem?_push, hne] using h

/-- There are as many entries as there are numbers. -/
theorem length_entries (r : IndexedRegistry) : r.entries.length = r.size := by
  simp [entries, size]

/-- The entries are in the order of their numbers. -/
theorem map_entries (hsize : r.size ≤ 2 ^ 32) :
    r.entries.map (·.1.toNat) = List.range r.size := by
  refine List.ext_getElem (by simp [length_entries]) fun i hi hi' => ?_
  have hlt : i < r.size := by simpa [length_entries] using hi
  have hnumber : (UInt32.ofNat i).toNat = i := by
    rw [UInt32.toNat_ofNat', Nat.mod_eq_of_lt (by omega)]
  simpa [entries] using hnumber

/-- The entries are the numbers with their paths. -/
theorem mem_entries_iff (hsize : r.size ≤ 2 ^ 32) :
    (id, q) ∈ r.entries ↔ r.path? id = some q := by
  simp only [entries, List.mem_map, Prod.mk.injEq, Prod.exists, List.mem_zipIdx_iff_getElem?,
    Array.getElem?_toList]
  constructor
  · rintro ⟨p, i, hp, rfl, rfl⟩
    have hlt : i < r.size := (Array.getElem?_eq_some_iff.mp hp).1
    rwa [path?, UInt32.toNat_ofNat', Nat.mod_eq_of_lt (by omega)]
  · intro h
    exact ⟨q, id.toNat, h, UInt32.ofNat_toNat, rfl⟩

/-- Without an index the entries are the same. -/
theorem entries_eq (hsize : r.size ≤ 2 ^ 32) :
    Registry.entries ⟨r.paths⟩ = r.entries.map fun (id, p) => (id.toNat, p) := by
  have hnumbers : (r.entries.map fun (id, p) => (id.toNat, p)).map Prod.fst =
      List.range r.size := by
    rw [List.map_map, ← map_entries hsize]
    rfl
  have hpaths : (r.entries.map fun (id, p) => (id.toNat, p)).map Prod.snd = r.paths.toList := by
    rw [List.map_map, entries, List.map_map]
    exact List.zipIdx_map_fst 0 r.paths.toList
  rw [← List.zip_unzip (r.entries.map _), List.unzip_eq_map, hnumbers, hpaths]
  rfl

/-- One more path after others. -/
theorem after_append_register (calls : List RegistryCall) (p : Path) :
    after (calls ++ [.register p]) =
      (((after calls).1.register p).1, (after calls).2 ++ [((after calls).1.register p).2]) := by
  rw [after, RegistryCall.outcome, List.foldl_append]
  rfl

/-- After any calls numbers have been handed out as they should be, and they are those that a search
would have handed out. -/
theorem numbers_after (ps : List Path)
    (hsize : (after (ps.map .register)).1.size ≤ 2 ^ 32) :
    (after (ps.map .register)).1.Numbers ps (after (ps.map .register)).2 ∧
      Registry.after (ps.map .register) = (⟨(after (ps.map .register)).1.paths⟩,
        (after (ps.map .register)).2.map UInt32.toNat) := by
  induction ps using List.reverseRecOn with
  | nil => exact ⟨numbers_empty, rfl⟩
  | append_singleton ps p ih =>
    rw [List.map_append, List.map_singleton, after_append_register] at hsize ⊢
    obtain ⟨hnumbers, hsearched⟩ := ih (Nat.le_trans (size_register _ p) hsize)
    refine ⟨hnumbers.register hsize, ?_⟩
    rw [Registry.after, RegistryCall.outcome, List.foldl_append, ← RegistryCall.outcome,
      ← Registry.after, hsearched]
    simp only [List.foldl_cons, List.foldl_nil, hnumbers.register_eq hsize, List.map_append,
      List.map_singleton]

/-- What a number stands for does not change with more calls. -/
theorem path?_after (calls : List RegistryCall) (more : List Path)
    (h : (after calls).1.path? id = some q) :
    (after (calls ++ more.map .register)).1.path? id = some q := by
  induction more using List.reverseRecOn with
  | nil => simpa using h
  | append_singleton more p ih =>
    rw [List.map_append, List.map_singleton, ← List.append_assoc, after_append_register]
    exact path?_register ih p

/-- The numbers of files are as good as their paths. Since a registry was last cleared, new paths
were given the numbers from zero on; two paths were given the same number exactly if they are the
same path; a number stands for the first spelling of its path, and goes on to do so until the
registry is cleared; the entries are the numbers in order, with their paths; and the index and the
paths are inverse to each other. A registry that searches its paths hands out the same numbers, and
finds the same numbers, paths and entries. -/
theorem after_numbers (calls : List RegistryCall) (r : IndexedRegistry) (ids : List UInt32)
    (hafter : after calls = (r, ids)) (hfew : r.size < 2 ^ 32) :
    let ps := RegistryCall.registered calls
    r.Numbers ps ids ∧
      (∀ (i j : Nat) (p q : Path), ps[i]? = some p → ps[j]? = some q →
        (ids[i]? = ids[j]? ↔ p.Same q)) ∧
      (∀ (more : List Path) (id : UInt32) (q : Path), r.path? id = some q →
        (after (calls ++ more.map .register)).1.path? id = some q) ∧
      (r.entries.map (·.1.toNat) = List.range r.size ∧
        ∀ (id : UInt32) (q : Path), (id, q) ∈ r.entries ↔ r.path? id = some q) ∧
      ∃ s : Registry, Registry.after calls = (s, ids.map UInt32.toNat) ∧ s.size = r.size ∧
        (∀ p, s.find? p = (r.number? p).map UInt32.toNat) ∧
        (∀ id, s.get? id.toNat = r.path? id) ∧
        s.entries = r.entries.map fun (id, p) => (id.toNat, p) := by
  intro ps
  have hclear : after (ps.map .register) = (r, ids) := by
    rw [after, RegistryCall.outcome_registered, ← after, hafter]
  have hsearched : Registry.after (ps.map .register) = Registry.after calls :=
    RegistryCall.outcome_registered ..
  have hsize : r.size ≤ 2 ^ 32 := Nat.le_of_lt hfew
  obtain ⟨hnumbers, hregistry⟩ := numbers_after ps (by rwa [hclear])
  rw [hclear] at hnumbers hregistry
  refine ⟨hnumbers, fun i j p q hp hq => hnumbers.same_iff hp hq, fun more id q hq => ?_,
    ⟨map_entries hsize, fun id q => mem_entries_iff hsize⟩,
    ⟨⟨r.paths⟩, ?_, rfl, hnumbers.find?_eq hsize, fun id => rfl, entries_eq hsize⟩⟩
  · exact path?_after calls more (by rwa [hafter])
  · rw [← hsearched, hregistry]

/-- A path that is registered again under another spelling gets the number that it has. -/
theorem after_numbers_spellings :
    let calls := [.register ⟨"a/b"⟩, .clear, .register ⟨"x"⟩, .register ⟨"a//b"⟩,
      .register ⟨"a/b"⟩]
    let r : IndexedRegistry := ⟨#[⟨"x"⟩, ⟨"a//b"⟩], [(⟨"a//b"⟩, 1), (⟨"x"⟩, 0)]⟩
    after calls = (r, [0, 1, 1]) ∧ r.Numbers [⟨"x"⟩, ⟨"a//b"⟩, ⟨"a/b"⟩] [0, 1, 1] ∧
      ∀ more : List Path, (after (calls ++ more.map .register)).1.path? 1 = some ⟨"a//b"⟩ := by
  intro calls r
  have hafter : after calls = (r, [0, 1, 1]) := by rfl
  have hfew : r.size < 2 ^ 32 := by decide
  have hnumbers := after_numbers calls r [0, 1, 1] hafter hfew
  exact ⟨hafter, hnumbers.1, fun more => hnumbers.2.2.1 more 1 ⟨"a//b"⟩ rfl⟩

end IndexedRegistry

end SmallC
