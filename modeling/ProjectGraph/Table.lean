/-! # Tables in order of insertion

A table maps keys to values and keeps its entries in the order in which their keys first came in. -/

namespace ProjectGraph

structure Table (κ α : Type) where
  entries : List (κ × α)
  nodup : (entries.map Prod.fst).Nodup
  deriving DecidableEq

namespace Table

variable {κ α β : Type}

def keys (t : Table κ α) : List κ := t.entries.map Prod.fst

def empty : Table κ α := ⟨[], .nil⟩

instance : EmptyCollection (Table κ α) := ⟨empty⟩

instance : Inhabited (Table κ α) := ⟨empty⟩

/-- The table of one entry. -/
def single (key : κ) (value : α) : Table κ α := ⟨[(key, value)], by simp⟩

/-- The entries whose key and value pass a test. -/
def filter (test : κ → α → Bool) (t : Table κ α) : Table κ α where
  entries := t.entries.filter fun e => test e.1 e.2
  nodup := t.nodup.sublist (List.filter_sublist.map Prod.fst)

def map (f : α → β) (t : Table κ α) : Table κ β where
  entries := t.entries.map fun e => (e.1, f e.2)
  nodup := by simpa [Function.comp_def] using t.nodup

variable [DecidableEq κ]

def get? (t : Table κ α) (key : κ) : Option α :=
  (t.entries.find? fun e => e.1 = key).map Prod.snd

/-- The entries with the value of `key` replaced, or a new entry at the end. -/
def insertEntry (key : κ) (value : α) : List (κ × α) → List (κ × α)
  | [] => [(key, value)]
  | e :: es => if e.1 = key then (key, value) :: es else e :: insertEntry key value es

theorem keys_insertEntry (key : κ) (value : α) (es : List (κ × α)) :
    (insertEntry key value es).map Prod.fst =
      if key ∈ es.map Prod.fst then es.map Prod.fst else es.map Prod.fst ++ [key] := by
  induction es with
  | nil => simp [insertEntry]
  | cons e es ih =>
    by_cases h : e.1 = key
    · simp [insertEntry, h]
    · simp only [insertEntry, h, if_false, List.map_cons, ih, List.mem_cons, Ne.symm h, false_or]
      split <;> simp

theorem nodup_insertEntry (key : κ) (value : α) {es : List (κ × α)}
    (h : (es.map Prod.fst).Nodup) : ((insertEntry key value es).map Prod.fst).Nodup := by
  rw [keys_insertEntry]
  split
  · exact h
  · next hk =>
    refine List.nodup_append.2 ⟨h, by simp, ?_⟩
    intro a ha b hb
    rw [List.mem_singleton] at hb
    subst hb
    exact fun hab => hk (hab ▸ ha)

/-- Gives `key` a value. A new key comes last, an old one keeps its place. -/
def insert (t : Table κ α) (key : κ) (value : α) : Table κ α :=
  ⟨insertEntry key value t.entries, nodup_insertEntry key value t.nodup⟩

/-- The table without `key`. -/
def erase (t : Table κ α) (key : κ) : Table κ α := t.filter fun k _ => k ≠ key

/-- Inserts the entries of `u` in their order. -/
def update (t u : Table κ α) : Table κ α := u.entries.foldl (fun t e => t.insert e.1 e.2) t

/-- The table of a list of pairs, in which a later value of a key replaces an earlier one. -/
def ofList (entries : List (κ × α)) : Table κ α :=
  entries.foldl (fun t e => t.insert e.1 e.2) empty

/-! ## Reading a table after a change -/

theorem find?_insertEntry (key other : κ) (value : α) (es : List (κ × α)) :
    ((insertEntry key value es).find? fun e => e.1 = other).map Prod.snd =
      if key = other then some value else (es.find? fun e => e.1 = other).map Prod.snd := by
  induction es with
  | nil => by_cases h : key = other <;> simp [insertEntry, h]
  | cons e es ih =>
    by_cases he : e.1 = key
    · subst he
      by_cases h : e.1 = other <;> simp [insertEntry, h]
    · by_cases h : key = other
      · subst h
        simpa [insertEntry, he] using ih
      · by_cases ho : e.1 = other
        · have hk : other ≠ key := Ne.symm h
          simp [insertEntry, ho, h, hk]
        · simpa [insertEntry, he, ho, h] using ih

@[simp] theorem get?_insert (t : Table κ α) (key other : κ) (value : α) :
    (t.insert key value).get? other = if key = other then some value else t.get? other :=
  find?_insertEntry key other value t.entries

@[simp] theorem keys_insert (t : Table κ α) (key : κ) (value : α) :
    (t.insert key value).keys = if key ∈ t.keys then t.keys else t.keys ++ [key] :=
  keys_insertEntry key value t.entries

end Table
end ProjectGraph
