import Mathlib.Data.List.Induction
import Mathlib.Data.List.Sort
import WireSchema.Proofs.Field.Declared
import WireSchema.Proofs.Text.Distinct

/-! # Tables of an enumeration

An enumeration has its values in two tables: by their names, and by their numbers, where a number
has its names in the order in which they were declared. Each value that is read is entered in both
(`EnumField.tables_eq_foldl`). As names are declared once, the tables agree: a name has a number if
and only if it is listed for that number, once, and for no other (`EnumField.Lists.tabulates`). -/

namespace WireSchema

open Markup

/-! ### Names listed for numbers -/

section
variable {v w : Int} {n : String} {names : List String} {t t' : List (Int × List String)}

/-- The names that a table lists for a number. -/
def namesIn (t : List (Int × List String)) (v : Int) : List String :=
  ((t.find? (·.1 == v)).map (·.2)).getD []

/-- The table with one more name of a number, behind those that the number has. -/
def putName (v : Int) (n : String) : List (Int × List String) → List (Int × List String)
  | [] => [(v, [n])]
  | (w, names) :: rest =>
    if v < w then (v, [n]) :: (w, names) :: rest
    else if v = w then (w, names ++ [n]) :: rest
    else (w, names) :: putName v n rest

/-- The numbers are in order, and each has a name. -/
structure Orderly (t : List (Int × List String)) : Prop where
  sorted : (t.map Prod.fst).Pairwise (· < ·)
  named : ∀ entry ∈ t, entry.2 ≠ []

theorem namesIn_nil (v : Int) : namesIn [] v = [] := rfl

theorem namesIn_cons : namesIn ((w, names) :: t) v = if w = v then names else namesIn t v := by
  by_cases h : w = v
  · simp [namesIn, h]
  · simp [namesIn, h]

theorem namesIn_eq_nil (h : v ∉ t.map Prod.fst) : namesIn t v = [] := by
  have hnone : t.find? (·.1 == v) = none := by
    rw [List.find?_eq_none]
    intro entry hentry heq
    exact h (List.mem_map.mpr ⟨entry, hentry, beq_iff_eq.mp heq⟩)
  rw [namesIn, hnone]
  rfl

theorem namesIn_eq_of_mem (ht : (t.map Prod.fst).Pairwise (· < ·)) (h : (v, names) ∈ t) :
    namesIn t v = names := by
  induction t with
  | nil => exact absurd h List.not_mem_nil
  | cons entry t ih =>
    obtain ⟨w, ms⟩ := entry
    rw [List.map_cons, List.pairwise_cons] at ht
    rw [namesIn_cons]
    rcases List.mem_cons.mp h with heq | h
    · cases heq
      exact if_pos rfl
    · rw [if_neg (ne_of_lt (ht.1 v (List.mem_map_of_mem h))), ih ht.2 h]

/-- The numbers of a table that is in order are those that it lists names for. -/
theorem Orderly.mem_iff (ht : Orderly t) : (v, names) ∈ t ↔ names ≠ [] ∧ names = namesIn t v := by
  constructor
  · exact fun h => ⟨ht.named _ h, (namesIn_eq_of_mem ht.sorted h).symm⟩
  · rintro ⟨hne, heq⟩
    by_contra hnot
    refine hne (heq.trans (namesIn_eq_nil fun hv => hnot ?_))
    obtain ⟨⟨w, ms⟩, hentry, rfl⟩ := List.mem_map.mp hv
    rwa [heq, namesIn_eq_of_mem ht.sorted hentry]

/-- Two tables in order are one table if they list the same names. -/
theorem Orderly.ext (ht : Orderly t) (ht' : Orderly t') (h : ∀ v, namesIn t v = namesIn t' v) :
    t = t' := by
  have hirrefl : Std.Irrefl fun a b : Int × List String => a.1 < b.1 := ⟨fun a => lt_irrefl a.1⟩
  have hasymm : Std.Antisymm fun a b : Int × List String => a.1 < b.1 :=
    ⟨fun a b hab hba => absurd hab (lt_asymm hba)⟩
  refine (List.pairwise_map.mp ht.sorted).eq_of_mem_iff (List.pairwise_map.mp ht'.sorted) ?_
  rintro ⟨v, names⟩
  rw [ht.mem_iff, ht'.mem_iff, h]

theorem mem_map_fst_putName :
    w ∈ (putName v n t).map Prod.fst ↔ w = v ∨ w ∈ t.map Prod.fst := by
  induction t with
  | nil => simp [putName]
  | cons entry t ih =>
    obtain ⟨u, names⟩ := entry
    rw [putName]
    split_ifs with hlt heq
    · simp
    · simp [heq]
    · rw [List.map_cons, List.mem_cons, ih, List.map_cons, List.mem_cons]
      exact or_left_comm

theorem Orderly.putName (ht : Orderly t) (v : Int) (n : String) : Orderly (putName v n t) := by
  induction t with
  | nil => exact ⟨List.pairwise_singleton _ _, by simp [WireSchema.putName]⟩
  | cons entry t ih =>
    obtain ⟨w, names⟩ := entry
    obtain ⟨hnames, hnamed⟩ := List.forall_mem_cons.mp ht.named
    have hsorted := ht.sorted
    rw [List.map_cons, List.pairwise_cons] at hsorted
    rw [WireSchema.putName]
    split_ifs with hlt heq
    · refine ⟨?_, List.forall_mem_cons.mpr ⟨List.cons_ne_nil _ _, ht.named⟩⟩
      rw [List.map_cons, List.pairwise_cons]
      refine ⟨List.forall_mem_cons.mpr ⟨hlt, fun u hu => lt_trans hlt (hsorted.1 u hu)⟩, ?_⟩
      exact ht.sorted
    · exact ⟨ht.sorted, List.forall_mem_cons.mpr ⟨by simp, hnamed⟩⟩
    · have hrest := ih ⟨hsorted.2, hnamed⟩
      refine ⟨?_, List.forall_mem_cons.mpr ⟨hnames, hrest.named⟩⟩
      rw [List.map_cons, List.pairwise_cons]
      refine ⟨fun u hu => ?_, hrest.sorted⟩
      rcases mem_map_fst_putName.mp hu with rfl | hu
      · omega
      · exact hsorted.1 u hu

/-- The name is listed for its number, and for all others the same names as before. -/
theorem namesIn_putName (ht : (t.map Prod.fst).Pairwise (· < ·)) :
    namesIn (putName v n t) w = if v = w then namesIn t v ++ [n] else namesIn t w := by
  induction t with
  | nil => rw [putName, namesIn_cons, namesIn_nil, namesIn_nil, List.nil_append]
  | cons entry t ih =>
    obtain ⟨u, names⟩ := entry
    rw [List.map_cons, List.pairwise_cons] at ht
    rw [putName]
    by_cases hlt : v < u
    · have hnew : namesIn ((u, names) :: t) v = [] := by
        refine namesIn_eq_nil fun hv => ?_
        rcases List.mem_cons.mp hv with rfl | hv
        · exact lt_irrefl _ hlt
        · exact lt_asymm hlt (ht.1 v hv)
      rw [if_pos hlt, namesIn_cons, hnew, List.nil_append]
    · rw [if_neg hlt]
      by_cases heq : v = u
      · rw [if_pos heq, heq, namesIn_cons, namesIn_cons, namesIn_cons, if_pos rfl]
        split_ifs <;> rfl
      · rw [if_neg heq, namesIn_cons, namesIn_cons, namesIn_cons, if_neg (Ne.symm heq), ih ht.2]
        split_ifs with huw hvw
        · exact absurd (hvw.trans huw.symm) heq
        · rfl
        · rfl
        · rfl

end

/-! ### The tables of an enumeration -/

/-- The values of an enumeration by their names, and the names by their numbers. -/
structure EnumTables where
  names : List (Special Int)
  numbers : List (Int × List String)

/-- The tables with one more value. -/
def EnumTables.enter (t : EnumTables) (v : Special Int) : EnumTables :=
  ⟨putNamed Special.name v t.names, putName v.value v.name t.numbers⟩

namespace EnumField

variable {f : EnumField} {v : Special Int} {n : String} {i : Int}

/-- The tables of an enumeration. -/
def tables (f : EnumField) : EnumTables := ⟨f.byName, f.byValue⟩

theorem mem_byName : v ∈ f.byName ↔ v ∈ f.values :=
  (List.mergeSort_perm f.values _).mem_iff

theorem sortedBy_byName (h : (f.values.map Special.name).Nodup) :
    SortedBy Special.name f.byName :=
  List.pairwise_map.mp (pairwise_lt_mergeSort (fun _ _ => decide_eq_true_iff) h)

theorem value?_eq_some_iff (h : (f.values.map Special.name).Nodup) :
    f.value? n = some v ↔ v ∈ f.byName ∧ v.name = n := by
  rw [mem_byName]
  exact findNamed?_eq_some_iff_of_nodup h

theorem mem_namesOf : n ∈ f.namesOf i ↔ ∃ v ∈ f.values, v.value = i ∧ v.name = n := by
  simp [namesOf, and_assoc]

theorem namesOf_eq_nil_iff : f.namesOf i = [] ↔ i ∉ f.values.map Special.value := by
  simp [namesOf, List.filter_eq_nil_iff]

theorem map_fst_byValue : f.byValue.map Prod.fst =
    ((f.values.map Special.value).eraseDups).mergeSort fun a b => a ≤ b := by
  simp [byValue, Function.comp_def]

theorem mem_map_fst_byValue : i ∈ f.byValue.map Prod.fst ↔ i ∈ f.values.map Special.value := by
  rw [map_fst_byValue, (List.mergeSort_perm _ _).mem_iff, List.mem_eraseDups]

theorem eq_namesOf_of_mem_byValue {entry : Int × List String} (h : entry ∈ f.byValue) :
    entry.2 = f.namesOf entry.1 := by
  unfold byValue at h
  obtain ⟨i, -, rfl⟩ := List.mem_map.mp h
  rfl

theorem orderly_byValue (f : EnumField) : Orderly f.byValue where
  sorted := by
    have hdistinct := nodup_eraseDups (f.values.map Special.value)
    rw [← List.map_id (f.values.map Special.value).eraseDups] at hdistinct
    rw [map_fst_byValue, ← List.map_id (List.mergeSort _ _)]
    exact pairwise_lt_mergeSort (fun _ _ => decide_eq_true_iff) hdistinct
  named entry hentry := by
    rw [eq_namesOf_of_mem_byValue hentry, ne_eq, namesOf_eq_nil_iff, not_not,
      ← mem_map_fst_byValue]
    exact List.mem_map_of_mem hentry

/-- The table by numbers lists for each number its names. -/
theorem namesIn_byValue (f : EnumField) (i : Int) : namesIn f.byValue i = f.namesOf i := by
  by_cases hi : i ∈ f.byValue.map Prod.fst
  · obtain ⟨⟨j, names⟩, hentry, rfl⟩ := List.mem_map.mp hi
    rw [namesIn_eq_of_mem f.orderly_byValue.sorted hentry]
    exact eq_namesOf_of_mem_byValue hentry
  · rw [namesIn_eq_nil hi, eq_comm, namesOf_eq_nil_iff, ← mem_map_fst_byValue]
    exact hi

theorem namesOf_append : { f with values := f.values ++ [v] }.namesOf i =
    if v.value = i then f.namesOf i ++ [v.name] else f.namesOf i := by
  by_cases h : v.value = i
  · simp [namesOf, List.filter_append, h]
  · simp [namesOf, List.filter_append, h]

/-- A value with a new name is entered in both tables. -/
theorem tables_append (h : ((f.values ++ [v]).map Special.name).Nodup) :
    { f with values := f.values ++ [v] }.tables = f.tables.enter v := by
  have hnames : (f.values.map Special.name).Nodup :=
    h.sublist ((List.sublist_append_left _ _).map _)
  have hfresh : findNamed? Special.name v.name f.byName = none := by
    rw [findNamed?_eq_none_iff]
    intro w hw
    rw [List.map_append, List.map_singleton, List.nodup_append] at h
    exact h.2.2 w.name (List.mem_map_of_mem (mem_byName.mp hw)) v.name List.mem_cons_self
  have hbyName : { f with values := f.values ++ [v] }.byName =
      putNamed Special.name v f.byName := by
    have hsorted := sortedBy_byName hnames
    obtain ⟨rest, hold, hnew⟩ := putNamed_perm (x := v) hsorted
    rw [hfresh, Option.toList_none, List.nil_append] at hold
    have hall : (f.values ++ [v]).Perm (v :: f.byName) :=
      List.perm_append_comm.trans ((List.mergeSort_perm f.values _).symm.cons v)
    refine List.Perm.eq_of_pairwise (fun a b _ _ hab hba => absurd hab (lt_asymm hba))
      (sortedBy_byName h) (sortedBy_putNamed hsorted) ?_
    exact (List.mergeSort_perm _ _).trans (hall.trans ((hold.cons v).trans hnew.symm))
  have hbyValue : { f with values := f.values ++ [v] }.byValue =
      putName v.value v.name f.byValue := by
    refine (orderly_byValue _).ext (f.orderly_byValue.putName _ _) fun i => ?_
    rw [namesIn_byValue, namesIn_putName f.orderly_byValue.sorted, namesIn_byValue,
      namesIn_byValue, namesOf_append]
    split_ifs with hi
    · rw [hi]
    · rfl
  unfold tables EnumTables.enter
  rw [hbyName, hbyValue]

/-- **The tables are kept as the values are read**, one after the other. -/
theorem tables_eq_foldl {vs : List (Special Int)} (h : (vs.map Special.name).Nodup) :
    { f with values := vs }.tables = vs.foldl EnumTables.enter ⟨[], []⟩ := by
  induction vs using List.reverseRecOn with
  | nil => simp [tables, byName, byValue]
  | append_singleton vs v ih =>
    have hvs : (vs.map Special.name).Nodup :=
      h.sublist ((List.sublist_append_left _ _).map _)
    rw [List.foldl_append, ← ih hvs]
    exact tables_append (f := { f with values := vs }) h

theorem mem_byValue {names : List String} :
    (i, names) ∈ f.byValue ↔ names ≠ [] ∧ names = f.namesOf i := by
  rw [f.orderly_byValue.mem_iff, namesIn_byValue]

theorem nodup_namesOf (h : (f.values.map Special.name).Nodup) (i : Int) : (f.namesOf i).Nodup :=
  h.sublist (List.filter_sublist.map _)

/-- **The two tables agree.** A name has a number if and only if it is listed for the number, once,
and for no other number. -/
theorem exists_value?_iff (h : (f.values.map Special.name).Nodup) :
    (∃ v, f.value? n = some v ∧ v.value = i) ↔
      (f.namesOf i).count n = 1 ∧ ∀ j, j ≠ i → n ∉ f.namesOf j := by
  have hlisted : (∃ v, f.value? n = some v ∧ v.value = i) ↔ n ∈ f.namesOf i := by
    simp only [value?_eq_some_iff h, mem_byName, mem_namesOf]
    exact exists_congr fun v => by tauto
  rw [hlisted]
  refine ⟨fun hn => ⟨List.count_eq_one_of_mem (nodup_namesOf h i) hn, fun j hj hnj => hj ?_⟩,
    fun hn => List.count_pos_iff.mp (by omega)⟩
  -- two values of the name are one value
  obtain ⟨v, hv, rfl, hname⟩ := mem_namesOf.mp hn
  obtain ⟨w, hw, rfl, hname'⟩ := mem_namesOf.mp hnj
  rw [List.inj_on_of_nodup_map h hv hw (hname.trans hname'.symm)]

theorem isUnique_iff : f.isUnique = true ↔ ∀ v ∈ f.values, (f.namesOf v.value).length = 1 := by
  simp [isUnique]

/-- No number has two names if and only if each entry of the table by numbers has one. -/
theorem isUnique_iff_byValue : f.isUnique = true ↔ ∀ entry ∈ f.byValue, entry.2.length = 1 := by
  rw [isUnique_iff]
  constructor
  · rintro h ⟨i, names⟩ hentry
    obtain ⟨hne, rfl⟩ := mem_byValue.mp hentry
    obtain ⟨n, hn⟩ := List.exists_mem_of_ne_nil _ hne
    obtain ⟨v, hv, rfl, -⟩ := mem_namesOf.mp hn
    exact h v hv
  · intro h v hv
    refine h (v.value, f.namesOf v.value) (mem_byValue.mpr ⟨?_, rfl⟩)
    exact List.ne_nil_of_mem (mem_namesOf.mpr ⟨v, hv, rfl, rfl⟩)

/-- No number has two names if and only if no two names share a number. -/
theorem isUnique_iff_of_nodup (h : (f.values.map Special.name).Nodup) : f.isUnique = true ↔
    ∀ v ∈ f.values, ∀ w ∈ f.values, v.value = w.value → v.name = w.name := by
  rw [isUnique_iff]
  constructor
  · intro hone v hv w hw heq
    obtain ⟨n, hn⟩ := List.length_eq_one_iff.mp (hone v hv)
    have hv' : v.name ∈ f.namesOf v.value := mem_namesOf.mpr ⟨v, hv, rfl, rfl⟩
    have hw' : w.name ∈ f.namesOf v.value := mem_namesOf.mpr ⟨w, hw, heq.symm, rfl⟩
    rw [hn, List.mem_singleton] at hv' hw'
    exact hv'.trans hw'.symm
  · intro hsame v hv
    have hall : f.namesOf v.value = List.replicate (f.namesOf v.value).length v.name := by
      refine List.eq_replicate_of_mem fun n hn => ?_
      obtain ⟨w, hw, heq, rfl⟩ := mem_namesOf.mp hn
      exact hsame w hw v hv heq
    have hnodup := nodup_namesOf h v.value
    rw [hall, List.nodup_replicate] at hnodup
    have hpos := List.length_pos_of_mem (mem_namesOf.mpr ⟨v, hv, rfl, rfl⟩)
    omega

/-- The tables of the enumeration have the names and numbers that are declared, and agree. -/
structure Tabulates (f : EnumField) (declared : List (String × Int)) : Prop where
  /-- The tables are kept as the values are read. -/
  kept : f.tables = f.values.foldl EnumTables.enter ⟨[], []⟩
  /-- The table by names is in their order, and has a value under its name. -/
  byName : SortedBy Special.name f.byName
  value? : ∀ n v, f.value? n = some v ↔ v ∈ f.byName ∧ v.name = n
  /-- The table by numbers is in their order, and has for a number its names. -/
  byValue : (f.byValue.map Prod.fst).Pairwise (· < ·)
  mem_byValue : ∀ i names, (i, names) ∈ f.byValue ↔ names ≠ [] ∧ names = f.namesOf i
  /-- A name has a number if and only if it is listed for it, once, and for no other. -/
  agree : ∀ n i, (∃ v, f.value? n = some v ∧ v.value = i) ↔
    (f.namesOf i).count n = 1 ∧ ∀ j, j ≠ i → n ∉ f.namesOf j
  /-- What is declared is in both tables. -/
  entered : ∀ d ∈ declared, (∃ v ∈ f.byName, v.name = d.1 ∧ v.value = d.2) ∧
    ∃ names, (d.2, names) ∈ f.byValue ∧ d.1 ∈ names
  /-- A number that is declared has names, in the order in which they are declared. -/
  named : ∀ d ∈ declared, f.namesOf d.2 ≠ []
  inOrder : ∀ i, f.namesOf i = (declared.filter (·.2 == i)).map (·.1)
  /-- No number has two names if and only if no two names share a number. -/
  unique : f.isUnique = true ↔ ∀ n n' v v', f.value? n = some v → f.value? n' = some v' →
    v.value = v'.value → n = n'
  /-- If numbers may not be shared, none is. -/
  unshared : f.nonUniqueAllowed = false → f.isUnique = true

/-- **The tables of an enumeration list what is declared, and agree.** -/
theorem Lists.tabulates {declared : List Element} (h : f.Lists declared) :
    f.Tabulates (declared.filterMap declaredValue?) := by
  have hdeclared {d : String × Int} (hd : d ∈ declared.filterMap declaredValue?) :
      ∃ v ∈ f.values, (v.name, v.value) = d := by
    rw [h.filterMap_eq] at hd
    exact List.mem_map.mp hd
  refine ⟨tables_eq_foldl h.names, sortedBy_byName h.names, fun n v => value?_eq_some_iff h.names,
    f.orderly_byValue.sorted, fun i names => mem_byValue, fun n i => exists_value?_iff h.names,
    fun d hd => ?_, fun d hd => ?_, fun i => ?_, ?_, fun hunshared => ?_⟩
  · obtain ⟨v, hv, rfl⟩ := hdeclared hd
    have hlisted : v.name ∈ f.namesOf v.value := mem_namesOf.mpr ⟨v, hv, rfl, rfl⟩
    exact ⟨⟨v, mem_byName.mpr hv, rfl, rfl⟩,
      _, mem_byValue.mpr ⟨List.ne_nil_of_mem hlisted, rfl⟩, hlisted⟩
  · obtain ⟨v, hv, rfl⟩ := hdeclared hd
    exact List.ne_nil_of_mem (mem_namesOf.mpr ⟨v, hv, rfl, rfl⟩)
  · rw [h.filterMap_eq, List.filter_map, List.map_map]
    rfl
  · simp only [isUnique_iff_of_nodup h.names, value?_eq_some_iff h.names, mem_byName]
    constructor
    · rintro hsame n n' v v' ⟨hv, rfl⟩ ⟨hv', rfl⟩ heq
      exact hsame v hv v' hv' heq
    · exact fun hsame v hv w hw heq => hsame v.name w.name v w ⟨hv, rfl⟩ ⟨hw, rfl⟩ heq
  · rw [isUnique_iff_of_nodup h.names]
    intro v hv w hw heq
    rw [List.inj_on_of_nodup_map (h.keys hunshared) hv hw heq]

end EnumField

end WireSchema
