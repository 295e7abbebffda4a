import Mathlib.Data.List.Nodup
import MiniC.Ty.StructTable

/-!
# The list of tags and the entries

A table has its entries under their tags, and beside them the tags in the order of first mention.
Nothing in the table ties the one to the other. `StructTable.InStep` says that they belong together:
the list has the tags that have entries, each once, and an entry has the tag that it stands under.
Mentioning a tag and changing an entry keep that up. Where it holds, going through the list finds
every entry once.
-/

namespace MiniC

namespace StructTable

/-- The list of tags belongs to the entries. -/
structure InStep (t : StructTable) : Prop where
  nodup : t.order.Nodup
  mem_order_iff : ∀ tag, tag ∈ t.order ↔ tag ∈ t.entries.keys
  tag_eq : ∀ tag d, t.get? tag = some d → d.tag = tag

theorem mentions_iff_mem_keys (t : StructTable) (tag : String) :
    t.mentions tag = true ↔ tag ∈ t.entries.keys := Dict.mem_keys_iff.symm

theorem order_mention (t : StructTable) (tag : String) :
    (t.mention tag).order = if t.mentions tag then t.order else t.order ++ [tag] := by
  unfold mention
  split <;> rfl

theorem mention_of_mentions {t : StructTable} {tag : String} (h : t.mentions tag = true) :
    t.mention tag = t := if_pos h

theorem mentions_mention_iff (t : StructTable) (tag n : String) :
    (t.mention tag).mentions n = true ↔ n = tag ∨ t.mentions n = true := by
  rw [mentions, mentions, get?_mention]
  by_cases h : tag = n
  · simp [h]
  · simp [h, Ne.symm h]

/-- A change adds no entry and drops none. -/
theorem mentions_update (t : StructTable) (tag n : String) (f : StructDef → StructDef) :
    (t.update tag f).mentions n = t.mentions n := by
  rw [mentions, mentions, get?_update]
  split
  · rw [Option.isSome_map]
  · rfl

namespace InStep

variable {t : StructTable}

theorem empty : InStep .empty := by
  refine ⟨List.nodup_nil, fun _ => Iff.rfl, fun tag d h => ?_⟩
  cases h

theorem mentions_iff (h : t.InStep) (tag : String) : t.mentions tag = true ↔ tag ∈ t.order := by
  rw [h.mem_order_iff, mentions_iff_mem_keys]

theorem mention (h : t.InStep) (tag : String) : (t.mention tag).InStep := by
  by_cases hold : t.mentions tag = true
  · rw [mention_of_mentions hold]
    exact h
  have horder : (t.mention tag).order = t.order ++ [tag] := by rw [order_mention, if_neg hold]
  refine ⟨?_, fun n => ?_, fun n d hd => ?_⟩
  · rw [horder, ← List.concat_eq_append]
    exact h.nodup.concat fun hmem => hold ((h.mentions_iff tag).2 hmem)
  · rw [← mentions_iff_mem_keys, mentions_mention_iff, h.mentions_iff, horder, List.mem_append,
      List.mem_singleton, or_comm]
  · rw [get?_mention, Option.or_eq_some_iff] at hd
    rcases hd with hd | ⟨-, hd⟩
    · exact h.tag_eq n d hd
    · split at hd
      · next hn =>
        cases hd
        exact hn
      · cases hd

/-- A change that keeps the tag of an entry. -/
theorem update (h : t.InStep) (tag : String) {f : StructDef → StructDef}
    (hf : ∀ d, (f d).tag = d.tag) : (t.update tag f).InStep := by
  refine ⟨h.nodup, fun n => ?_, fun n d hd => ?_⟩
  · rw [← mentions_iff_mem_keys, mentions_update, h.mentions_iff]
    rfl
  · rw [get?_update] at hd
    split at hd
    · obtain ⟨e, he, rfl⟩ := Option.map_eq_some_iff.1 hd
      exact (hf e).trans (h.tag_eq n e he)
    · exact h.tag_eq n d hd

/-- Every tag of the list has its entry. -/
theorem exists_get? (h : t.InStep) {tag : String} (htag : tag ∈ t.order) :
    ∃ d, t.get? tag = some d :=
  Option.isSome_iff_exists.1 ((h.mentions_iff tag).2 htag)

/-- The entries are listed in the order of their tags, and none is left out. -/
theorem tags_defs (h : t.InStep) : t.defs.map (·.tag) = t.order := by
  have htag : ∀ tag ∈ t.order, (t.get? tag).map (·.tag) = some tag := by
    intro tag hmem
    obtain ⟨d, hd⟩ := h.exists_get? hmem
    rw [hd, Option.map_some, h.tag_eq tag d hd]
  rw [defs, List.map_filterMap, List.filterMap_congr htag, List.filterMap_some]

theorem mem_defs_iff (h : t.InStep) (d : StructDef) :
    d ∈ t.defs ↔ ∃ tag, t.get? tag = some d := by
  rw [defs, List.mem_filterMap]
  constructor
  · rintro ⟨tag, -, hd⟩
    exact ⟨tag, hd⟩
  · rintro ⟨tag, hd⟩
    exact ⟨tag, (h.mentions_iff tag).1 (Option.isSome_iff_exists.2 ⟨d, hd⟩), hd⟩

theorem nodup_defs (h : t.InStep) : t.defs.Nodup := by
  have hnodup := h.nodup
  rw [← h.tags_defs] at hnodup
  exact hnodup.of_map _

/-- Every entry is listed once. -/
theorem perm_defs (h : t.InStep) : t.defs.Perm (t.entries.bindings.map (·.2)) := by
  have htags : (t.entries.bindings.map (·.2)).map (·.tag) = t.entries.keys := by
    rw [List.map_map]
    exact List.map_congr_left fun b hb => h.tag_eq b.1 b.2 (Dict.get?_eq_some_iff.2 hb)
  have hvalues : (t.entries.bindings.map (·.2)).Nodup := by
    have hdistinct : t.entries.keys.Nodup := t.entries.distinct
    rw [← htags] at hdistinct
    exact hdistinct.of_map _
  rw [List.perm_ext_iff_of_nodup h.nodup_defs hvalues]
  intro d
  rw [h.mem_defs_iff, List.mem_map]
  constructor
  · rintro ⟨tag, hd⟩
    exact ⟨(tag, d), Dict.get?_eq_some_iff.1 hd, rfl⟩
  · rintro ⟨b, hb, rfl⟩
    exact ⟨b.1, Dict.get?_eq_some_iff.2 hb⟩

end InStep

end StructTable

end MiniC
