/-!
Tables: finite maps that remember the order in which their keys first came in. Setting a key that is
there keeps its place.
-/
namespace FlowGraph

structure Table (κ α : Type) where
  entries : List (κ × α) := []
  deriving Repr, Inhabited

namespace Table

variable {κ α β : Type} [DecidableEq κ]

instance [DecidableEq α] : DecidableEq (Table κ α) := fun a b =>
  if h : a.entries = b.entries then isTrue (by cases a; cases b; simp_all)
  else isFalse (fun e => h (by rw [e]))

def empty : Table κ α := ⟨[]⟩

def get? (t : Table κ α) (k : κ) : Option α :=
  (t.entries.find? (·.1 = k)).map (·.2)

def has (t : Table κ α) (k : κ) : Bool := t.entries.any (·.1 = k)

def keys (t : Table κ α) : List κ := t.entries.map (·.1)
def values (t : Table κ α) : List α := t.entries.map (·.2)
def size (t : Table κ α) : Nat := t.entries.length

/-- Replaces the value of the key in place, or adds the key at the end. -/
def setEntries (k : κ) (v : α) : List (κ × α) → List (κ × α)
  | [] => [(k, v)]
  | e :: es => if e.1 = k then (k, v) :: es else e :: setEntries k v es

def set (t : Table κ α) (k : κ) (v : α) : Table κ α := ⟨setEntries k v t.entries⟩

def erase (t : Table κ α) (k : κ) : Table κ α := ⟨t.entries.filter (·.1 ≠ k)⟩

/-- The value of the key changed by `f`, if it is there. -/
def update (t : Table κ α) (k : κ) (f : α → α) : Table κ α :=
  ⟨t.entries.map fun e => if e.1 = k then (e.1, f e.2) else e⟩

/-- Sets the pairs one after the other, so the last value of a key wins. -/
def ofList (pairs : List (κ × α)) : Table κ α := pairs.foldl (fun t p => t.set p.1 p.2) empty

def mapValues (t : Table κ α) (f : α → β) : Table κ β := ⟨t.entries.map fun e => (e.1, f e.2)⟩

@[simp] theorem get?_empty (k : κ) : (empty : Table κ α).get? k = none := rfl

theorem find?_setEntries (k j : κ) (v : α) (es : List (κ × α)) :
    ((setEntries k v es).find? (·.1 = j)).map (·.2) =
      if k = j then some v else (es.find? (·.1 = j)).map (·.2) := by
  induction es with
  | nil => by_cases h : k = j <;> simp [setEntries, h]
  | cons e es ih =>
    by_cases he : e.1 = k
    · by_cases h : k = j
      · simp [setEntries, he, h]
      · simp [setEntries, he, h]
    · have hs : setEntries k v (e :: es) = e :: setEntries k v es := by simp [setEntries, he]
      by_cases hj : e.1 = j
      · have hk : k ≠ j := fun h => he (hj.trans h.symm)
        simp [hs, hj, hk]
      · simp [hs, hj, ih]

/-- Setting a key is seen at that key and nowhere else. -/
@[simp] theorem get?_set (t : Table κ α) (k j : κ) (v : α) :
    (t.set k v).get? j = if k = j then some v else t.get? j :=
  find?_setEntries k j v t.entries

theorem keys_setEntries (k : κ) (v : α) (es : List (κ × α)) :
    (setEntries k v es).map (·.1) =
      if k ∈ es.map (·.1) then es.map (·.1) else es.map (·.1) ++ [k] := by
  induction es with
  | nil => simp [setEntries]
  | cons e es ih =>
    by_cases he : e.1 = k
    · simp [setEntries, he]
    · have : k ≠ e.1 := fun h => he h.symm
      by_cases hk : k ∈ es.map (·.1) <;> simp_all [setEntries]

/-- A key keeps its place, a new key goes last. -/
theorem keys_set (t : Table κ α) (k : κ) (v : α) :
    (t.set k v).keys = if k ∈ t.keys then t.keys else t.keys ++ [k] :=
  keys_setEntries k v t.entries

theorem has_iff (t : Table κ α) (k : κ) : t.has k = true ↔ k ∈ t.keys := by
  simp [has, keys]

theorem get?_eq_none_iff (t : Table κ α) (k : κ) : t.get? k = none ↔ k ∉ t.keys := by
  simp only [get?, Option.map_eq_none_iff, List.find?_eq_none, decide_eq_true_eq, keys, List.mem_map,
    not_exists, not_and]

theorem mem_keys_of_get? {t : Table κ α} {k : κ} {v : α} (h : t.get? k = some v) : k ∈ t.keys := by
  by_cases hk : k ∈ t.keys
  · exact hk
  · rw [(get?_eq_none_iff t k).2 hk] at h
    cases h

theorem mem_entries_of_get? {t : Table κ α} {k : κ} {v : α} (h : t.get? k = some v) : (k, v) ∈ t.entries := by
  obtain ⟨e, he, hv⟩ := Option.map_eq_some_iff.1 h
  have hk : e.1 = k := by simpa using List.find?_some he
  have hm := List.mem_of_find?_eq_some he
  rw [← hk, ← hv]
  exact hm

/-- With distinct keys every entry is the one that is found under its key. -/
theorem get?_of_mem_entries {t : Table κ α} (hn : t.keys.Nodup) {k : κ} {v : α} (h : (k, v) ∈ t.entries) :
    t.get? k = some v := by
  obtain ⟨es⟩ := t
  induction es with
  | nil => cases h
  | cons e es ih =>
    obtain ⟨hout, hrest⟩ := List.nodup_cons.1 hn
    rcases List.mem_cons.1 h with rfl | h
    · simp [get?]
    · have hne : e.1 ≠ k := by
        intro he
        exact hout (List.mem_map.2 ⟨(k, v), h, he.symm⟩)
      simpa [get?, hne] using ih hrest h

@[simp] theorem get?_erase (t : Table κ α) (k j : κ) :
    (t.erase k).get? j = if k = j then none else t.get? j := by
  simp only [erase, get?, List.find?_filter]
  split
  · rename_i h
    subst h
    simp
  · rename_i h
    congr 2
    funext e
    by_cases he : e.1 = j
    · simp [he, Ne.symm h]
    · simp [he]

theorem keys_erase (t : Table κ α) (k : κ) : (t.erase k).keys = t.keys.filter (· ≠ k) := by
  simp [erase, keys, List.filter_map, Function.comp_def]

theorem nodup_keys_erase {t : Table κ α} (h : t.keys.Nodup) (k : κ) : (t.erase k).keys.Nodup := by
  rw [keys_erase]
  exact h.filter _

theorem nodup_keys_set {t : Table κ α} (h : t.keys.Nodup) (k : κ) (v : α) : (t.set k v).keys.Nodup := by
  rw [keys_set]
  split
  · exact h
  · rename_i hk
    rw [List.nodup_append]
    refine ⟨h, by simp, ?_⟩
    rintro a ha b hb rfl
    exact hk ((List.mem_singleton.1 hb) ▸ ha)

theorem nodup_keys_foldl_set (pairs : List (κ × α)) {t : Table κ α} (h : t.keys.Nodup) :
    (pairs.foldl (fun t p => t.set p.1 p.2) t).keys.Nodup := by
  induction pairs generalizing t with
  | nil => exact h
  | cons p rest ih => exact ih (nodup_keys_set h p.1 p.2)

theorem nodup_keys_ofList (pairs : List (κ × α)) : (ofList pairs).keys.Nodup :=
  nodup_keys_foldl_set pairs List.nodup_nil

theorem mem_setEntries {k : κ} {v : α} {es : List (κ × α)} {e : κ × α} (h : e ∈ setEntries k v es) :
    e = (k, v) ∨ e ∈ es := by
  induction es with
  | nil => exact .inl (List.mem_singleton.1 h)
  | cons e' es ih =>
    unfold setEntries at h
    split at h
    · rcases List.mem_cons.1 h with h | h
      · exact .inl h
      · exact .inr (List.mem_cons_of_mem _ h)
    · rcases List.mem_cons.1 h with rfl | h
      · exact .inr List.mem_cons_self
      · exact (ih h).imp_right (List.mem_cons_of_mem _)

theorem mem_entries_set {t : Table κ α} {k : κ} {v : α} {e : κ × α} (h : e ∈ (t.set k v).entries) :
    e = (k, v) ∨ e ∈ t.entries :=
  mem_setEntries h

theorem mem_foldl_set {pairs : List (κ × α)} {t : Table κ α} {e : κ × α}
    (h : e ∈ (pairs.foldl (fun t p => t.set p.1 p.2) t).entries) : e ∈ t.entries ∨ e ∈ pairs := by
  induction pairs generalizing t with
  | nil => exact .inl h
  | cons p pairs ih =>
    rcases ih h with h | h
    · rcases mem_entries_set h with rfl | h
      · exact .inr List.mem_cons_self
      · exact .inl h
    · exact .inr (List.mem_cons_of_mem p h)

/-- Every entry is one of the pairs. -/
theorem mem_entries_ofList {pairs : List (κ × α)} {e : κ × α} (h : e ∈ (ofList pairs).entries) : e ∈ pairs :=
  (mem_foldl_set h).resolve_left fun h => by cases h

/-- What comes before the key stays in place, whether the key is there or not. -/
theorem setEntries_append {k : κ} (v : α) {before after : List (κ × α)} (h : k ∉ before.map (·.1)) :
    setEntries k v (before ++ after) = before ++ setEntries k v after := by
  induction before with
  | nil => rfl
  | cons e before ih =>
    simp only [List.map_cons, List.mem_cons, not_or] at h
    simp [setEntries, Ne.symm h.1, ih h.2]

/-- A new key goes last. -/
theorem entries_set_of_not_mem {t : Table κ α} {k : κ} (v : α) (h : k ∉ t.keys) :
    (t.set k v).entries = t.entries ++ [(k, v)] := by
  have ha := @setEntries_append _ _ _ k v t.entries [] h
  simpa [set, setEntries] using ha

theorem entries_foldl_set {pairs : List (κ × α)} {t : Table κ α} (h : (t.keys ++ pairs.map (·.1)).Nodup) :
    (pairs.foldl (fun t p => t.set p.1 p.2) t).entries = t.entries ++ pairs := by
  induction pairs generalizing t with
  | nil => simp
  | cons p pairs ih =>
    have hnew : p.1 ∉ t.keys := by
      intro hp
      rw [List.map_cons, List.nodup_append] at h
      exact h.2.2 p.1 hp p.1 List.mem_cons_self rfl
    have hset := entries_set_of_not_mem p.2 hnew
    have hkeys : (t.set p.1 p.2).keys = t.keys ++ [p.1] := by simp [keys, hset]
    rw [List.foldl_cons, ih, hset, List.append_assoc, List.singleton_append]
    rw [hkeys, List.append_assoc]
    exact h

/-- With distinct keys a table keeps the pairs as they come. -/
theorem entries_ofList {pairs : List (κ × α)} (h : (pairs.map (·.1)).Nodup) : (ofList pairs).entries = pairs :=
  entries_foldl_set h

theorem get?_ofList {pairs : List (κ × α)} (h : (pairs.map (·.1)).Nodup) {k : κ} {v : α} (hkv : (k, v) ∈ pairs) :
    (ofList pairs).get? k = some v := by
  have hentries := entries_ofList h
  refine get?_of_mem_entries (nodup_keys_ofList pairs) ?_
  rwa [hentries]

end Table

end FlowGraph
