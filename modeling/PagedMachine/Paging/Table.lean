import PagedMachine.Word

/-!
# Tables

Finite maps from words to values, kept as a list in strictly ascending order of
keys. The order of the entries is the order in which answers list them.
-/

namespace PagedMachine

def insertEntry {α : Type} (key : Word) (value : α) : List (Word × α) → List (Word × α)
  | [] => [(key, value)]
  | e :: rest =>
    if key < e.1 then (key, value) :: e :: rest
    else if key = e.1 then (key, value) :: rest
    else e :: insertEntry key value rest

theorem mem_insertEntry {α : Type} {key : Word} {value : α} {x : Word × α} :
    ∀ {l : List (Word × α)}, x ∈ insertEntry key value l → x = (key, value) ∨ x ∈ l
  | [], h => by simpa [insertEntry] using h
  | e :: rest, h => by
    rw [insertEntry] at h
    split at h
    · simpa using h
    · split at h
      · rcases List.mem_cons.mp h with h | h
        · exact .inl h
        · exact .inr (List.mem_cons_of_mem _ h)
      · rcases List.mem_cons.mp h with h | h
        · exact .inr (h ▸ List.mem_cons_self)
        · exact (mem_insertEntry h).imp_right (List.mem_cons_of_mem _)

theorem pairwise_insertEntry {α : Type} (key : Word) (value : α) :
    ∀ {l : List (Word × α)}, l.Pairwise (·.1 < ·.1) →
      (insertEntry key value l).Pairwise (·.1 < ·.1)
  | [], _ => by simp [insertEntry]
  | e :: rest, h => by
    obtain ⟨he, hr⟩ := List.pairwise_cons.mp h
    rw [insertEntry]
    split
    · rename_i hlt
      refine List.pairwise_cons.mpr ⟨fun x hx => ?_, h⟩
      rcases List.mem_cons.mp hx with rfl | hx
      · exact hlt
      · exact UInt32.lt_trans hlt (he x hx)
    · split
      · rename_i heq
        exact List.pairwise_cons.mpr ⟨fun x hx => heq ▸ he x hx, hr⟩
      · rename_i hlt hne
        refine List.pairwise_cons.mpr ⟨fun x hx => ?_, pairwise_insertEntry key value hr⟩
        rcases mem_insertEntry hx with rfl | hx
        · exact UInt32.lt_of_le_of_ne (UInt32.not_lt.mp hlt) (Ne.symm hne)
        · exact he x hx

theorem lookup_cons_ite {α : Type} (q : Word) (e : Word × α) (rest : List (Word × α)) :
    (e :: rest).lookup q = if q = e.1 then some e.2 else rest.lookup q := by
  obtain ⟨k, v⟩ := e
  by_cases h : q = k <;> simp [List.lookup_cons, h]
  simp [beq_eq_false_iff_ne.mpr h]

theorem lookup_insertEntry {α : Type} (key q : Word) (value : α) (l : List (Word × α)) :
    (insertEntry key value l).lookup q = if q = key then some value else l.lookup q := by
  induction l with
  | nil => simp [insertEntry, lookup_cons_ite]
  | cons e rest ih =>
    rw [insertEntry]
    split
    · simp [lookup_cons_ite]
    · split
      · rename_i heq
        by_cases h : q = key <;> simp [lookup_cons_ite, h, ← heq]
      · rename_i hne
        by_cases h : q = key
        · subst h
          simpa [lookup_cons_ite, hne] using ih
        · simp [lookup_cons_ite, h, ih]

theorem lookup_filter_ne {α : Type} (key q : Word) (l : List (Word × α)) :
    (l.filter (·.1 != key)).lookup q = if q = key then none else l.lookup q := by
  induction l with
  | nil => simp
  | cons e rest ih =>
    by_cases he : e.1 = key
    · rw [List.filter_cons_of_neg (by simp [he]), ih, lookup_cons_ite]
      by_cases h : q = key <;> simp [he, h]
    · rw [List.filter_cons_of_pos (by simp [he]), lookup_cons_ite, lookup_cons_ite, ih]
      by_cases h : q = key
      · simp [h, Ne.symm he]
      · simp [h]

theorem lookup_map_snd {α β : Type} (f : Word → α → β) (q : Word) (l : List (Word × α)) :
    (l.map fun e => (e.1, f e.1 e.2)).lookup q = (l.lookup q).map (f q) := by
  induction l with
  | nil => rfl
  | cons e rest ih => by_cases h : q = e.1 <;> simp [lookup_cons_ite, h, ih]

structure Table (α : Type) where
  entries : List (Word × α)
  sorted : entries.Pairwise (·.1 < ·.1)

namespace Table

variable {α : Type}

instance [DecidableEq α] : DecidableEq (Table α) := fun s t =>
  decidable_of_iff (s.entries = t.entries) (by cases s; cases t; simp)

instance : Inhabited (Table α) := ⟨⟨[], .nil⟩⟩

def empty : Table α := ⟨[], .nil⟩

def size (t : Table α) : Nat := t.entries.length

def isEmpty (t : Table α) : Bool := t.entries.isEmpty

def keys (t : Table α) : List Word := t.entries.map (·.1)

def values (t : Table α) : List α := t.entries.map (·.2)

def find? (t : Table α) (key : Word) : Option α := t.entries.lookup key

def contains (t : Table α) (key : Word) : Bool := (t.find? key).isSome

def insert (t : Table α) (key : Word) (value : α) : Table α :=
  ⟨insertEntry key value t.entries, pairwise_insertEntry key value t.sorted⟩

def erase (t : Table α) (key : Word) : Table α :=
  ⟨t.entries.filter (·.1 != key), t.sorted.filter _⟩

def map {β : Type} (f : α → β) (t : Table α) : Table β :=
  ⟨t.entries.map fun e => (e.1, f e.2), List.pairwise_map.mpr t.sorted⟩

def update (t : Table α) (key : Word) (f : α → α) : Table α :=
  ⟨t.entries.map fun e => (e.1, if e.1 = key then f e.2 else e.2), List.pairwise_map.mpr t.sorted⟩

@[simp] theorem find?_empty (key : Word) : (empty : Table α).find? key = none := rfl

theorem find?_insert (t : Table α) (key q : Word) (value : α) :
    (t.insert key value).find? q = if q = key then some value else t.find? q :=
  lookup_insertEntry key q value t.entries

theorem find?_erase (t : Table α) (key q : Word) :
    (t.erase key).find? q = if q = key then none else t.find? q :=
  lookup_filter_ne key q t.entries

theorem find?_map {β : Type} (f : α → β) (t : Table α) (q : Word) :
    (t.map f).find? q = (t.find? q).map f :=
  lookup_map_snd (fun _ => f) q t.entries

theorem find?_update (t : Table α) (key q : Word) (f : α → α) :
    (t.update key f).find? q = if q = key then (t.find? q).map f else t.find? q := by
  have h := lookup_map_snd (fun k v => if k = key then f v else v) q t.entries
  rw [find?, update, h]
  by_cases hq : q = key <;> simp [find?, hq]

end Table

end PagedMachine
