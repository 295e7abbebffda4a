/-! # Dictionaries

A dictionary binds keys to values, one value a key. The key stands beside the value and is no part
of it: a bound value can be changed in any way and is still found under its key. New keys are put
last, but nothing depends on the order of the bindings. Where an order matters it is kept in a list
of its own. -/

namespace MiniC

@[ext] structure Dict (α : Type) where
  bindings : List (String × α)
  distinct : (bindings.map (·.1)).Nodup
  deriving DecidableEq, Repr

namespace Dict

def empty : Dict α := ⟨[], List.nodup_nil⟩

def keys (d : Dict α) : List String := d.bindings.map (·.1)

def get? (d : Dict α) (key : String) : Option α := d.bindings.lookup key

/-- Changes the value bound to `key`, if there is one. -/
def modify (d : Dict α) (key : String) (f : α → α) : Dict α where
  bindings := d.bindings.map fun b => (b.1, if b.1 = key then f b.2 else b.2)
  distinct := by
    rw [List.map_map]
    exact d.distinct

theorem nodup_concat {d : Dict α} {key : String} (h : key ∉ d.keys) (a : α) :
    ((d.bindings ++ [(key, a)]).map (·.1)).Nodup := by
  rw [List.map_append, List.map_singleton, List.nodup_append]
  refine ⟨d.distinct, by simp, ?_⟩
  intro n hn m hm heq
  rw [heq, List.mem_singleton.1 hm] at hn
  exact h hn

/-- Binds `key`, in place of what it was bound to. -/
def insert (d : Dict α) (key : String) (a : α) : Dict α :=
  if h : key ∈ d.keys then d.modify key fun _ => a else ⟨d.bindings ++ [(key, a)], nodup_concat h a⟩

theorem get?_empty (key : String) : (empty : Dict α).get? key = none := rfl

section

variable {d : Dict α} {key : String}

theorem get?_eq_none_iff : d.get? key = none ↔ key ∉ d.keys := by
  rw [get?, List.lookup_eq_none_iff, keys, List.mem_map]
  simp only [bne_iff_ne, ne_comm, ne_eq, not_exists, not_and]

theorem mem_keys_iff : key ∈ d.keys ↔ (d.get? key).isSome = true := by
  rw [← Decidable.not_iff_not, ← get?_eq_none_iff, Option.not_isSome_iff_eq_none]

/-- What a key is bound to is found under it, and nothing else. -/
theorem get?_eq_some_iff {a : α} : d.get? key = some a ↔ (key, a) ∈ d.bindings := by
  rw [get?, List.lookup_eq_some_iff]
  constructor
  · rintro ⟨pre, post, hsplit, -⟩
    simp [hsplit]
  · intro h
    obtain ⟨pre, post, hsplit⟩ := List.append_of_mem h
    refine ⟨pre, post, hsplit, ?_⟩
    -- no binding before this one has the key, as no key is there twice
    have hdistinct := d.distinct
    rw [hsplit, List.map_append, List.nodup_append] at hdistinct
    intro b hb
    rw [bne_iff_ne, ne_comm]
    exact hdistinct.2.2 b.1 (List.mem_map_of_mem hb) key (by simp)

theorem bindings_insert_of_none (h : d.get? key = none) (a : α) :
    (d.insert key a).bindings = d.bindings ++ [(key, a)] := by
  rw [insert, dif_neg (get?_eq_none_iff.1 h)]

end

variable (d : Dict α) (key n : String)

/-- A change is seen at its key only. -/
theorem get?_modify (f : α → α) :
    (d.modify key f).get? n = if key = n then (d.get? n).map f else d.get? n := by
  have hmap : (d.modify key f).get? n = (d.get? n).map fun a => if n = key then f a else a := by
    apply Option.ext
    intro a
    rw [get?_eq_some_iff, Option.map_eq_some_iff, modify]
    simp only [get?_eq_some_iff, List.mem_map, Prod.exists, Prod.mk.injEq]
    constructor
    · rintro ⟨m, b, hb, rfl, rfl⟩
      exact ⟨b, hb, rfl⟩
    · rintro ⟨b, hb, rfl⟩
      exact ⟨n, b, hb, rfl, rfl⟩
  rw [hmap]
  split
  · next h => simp [h]
  · next h => simp [Ne.symm h]

/-- Binding a key is seen at this key only. -/
theorem get?_insert (a : α) :
    (d.insert key a).get? n = if key = n then some a else d.get? n := by
  unfold insert
  split
  · next h =>
    rw [get?_modify]
    split
    · next hn =>
      obtain ⟨b, hb⟩ := Option.isSome_iff_exists.1 (mem_keys_iff.1 h)
      rw [← hn, hb, Option.map_some]
    · rfl
  · next h =>
    rw [get?, List.lookup_append, ← get?]
    split
    · next hn => simp [← hn, get?_eq_none_iff.2 h]
    · next hn => simp [List.lookup_cons, beq_false_of_ne (Ne.symm hn)]

end Dict

end MiniC
