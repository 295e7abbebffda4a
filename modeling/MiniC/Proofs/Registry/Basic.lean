import MiniC.Proofs.FileScope
import MiniC.Proofs.Registry.Order

/-!
# The registry of struct tags

The struct specifiers of a program are walked in source order, a definition before those in its
member list (`Specifier.walked`). A definition of a tag that has one already is rejected, and its
member list is not walked. The entries of the registry are determined by what was walked: they are
in the order of first mention, and a tag has the members of its first definition, repeated names
left out (`entry`). While a definition is open its entry is complete and has no members yet, and
`StructTable.Holds` says so of the table in the middle of a walk.
-/

namespace MiniC

/-! ## Mentions -/

/-- A struct specifier: its tag, and the member list if it is a full definition. -/
structure Mention where
  tag : Ident
  members : Option (List Decl)

/-- The member list of the first full definition of a tag. -/
def firstDefinition? (ws : List Mention) (tag : String) : Option (List Decl) :=
  ws.findSome? fun w => if w.tag.name = tag then w.members else none

mutual

/-- The struct specifiers that are walked after the ones `before`, in source order. -/
def Specifier.walked (before : List Mention) : Specifier → List Mention
  | .int _ | .char _ => []
  | .structRef tag _ => [⟨tag, none⟩]
  | .structDef tag members _ =>
    ⟨tag, some members⟩ ::
      if (firstDefinition? before tag.name).isSome then []
      else membersWalked (before ++ [⟨tag, some members⟩]) members

def Decl.walked (before : List Mention) : Decl → List Mention
  | ⟨specifier, _, _⟩ => specifier.walked before

def membersWalked (before : List Mention) : List Decl → List Mention
  | [] => []
  | member :: more =>
    member.walked before ++ membersWalked (before ++ member.walked before) more

end

/-- What is walked in some specifiers in order. -/
def walkedFrom (before : List Mention) : List Specifier → List Mention
  | [] => []
  | spec :: more => spec.walked before ++ walkedFrom (before ++ spec.walked before) more

/-- The struct specifiers of a program that are walked. -/
def Program.walked (p : Program) : List Mention := walkedFrom [] (p.items.flatMap Item.specifiers)

theorem Decl.walked_eq (before : List Mention) (d : Decl) :
    d.walked before = d.specifier.walked before := by
  cases d
  rfl

theorem walkedFrom_append (before : List Mention) (specs more : List Specifier) :
    walkedFrom before (specs ++ more) =
      walkedFrom before specs ++ walkedFrom (before ++ walkedFrom before specs) more := by
  induction specs generalizing before with
  | nil => simp [walkedFrom]
  | cons spec specs ih =>
    simp only [List.cons_append, walkedFrom, ih, List.append_assoc]

/-! ## Members -/

/-- The members without those that repeat a name, `earlier` names included. -/
def keptMembers (earlier : List String) : List Decl → List Decl
  | [] => []
  | d :: more =>
    (if d.core.name ∈ earlier then [] else [d]) ++ keptMembers (d.core.name :: earlier) more

/-- The members that repeat a name, `earlier` names included. -/
def repeatedMembers (earlier : List String) : List Decl → List Decl
  | [] => []
  | d :: more =>
    (if d.core.name ∈ earlier then [d] else []) ++ repeatedMembers (d.core.name :: earlier) more

/-- A member as it is listed in the registry. -/
def Decl.field (d : Decl) : Field := ⟨d.core.name, d.ty⟩

/-- The entry of a tag. -/
def entry (ws : List Mention) (tag : String) : StructDef :=
  match firstDefinition? ws tag with
  | none => .mentioned tag
  | some members => ⟨tag, (keptMembers [] members).map Decl.field, true⟩

/-! ## First definitions -/

section

variable {ws more : List Mention} {tag : String} {members : List Decl}

theorem firstDefinition?_append :
    firstDefinition? (ws ++ more) tag =
      (firstDefinition? ws tag).or (firstDefinition? more tag) := by
  rw [firstDefinition?, List.findSome?_append]
  rfl

theorem firstDefinition?_of_some (h : firstDefinition? ws tag = some members) :
    firstDefinition? (ws ++ more) tag = some members := by
  rw [firstDefinition?_append, h, Option.some_or]

/-- A mention that is no first definition does not count. -/
theorem firstDefinition?_concat {w : Mention}
    (hw : w.members = none ∨ (firstDefinition? ws w.tag.name).isSome = true) (tag : String) :
    firstDefinition? (ws ++ [w]) tag = firstDefinition? ws tag := by
  rw [firstDefinition?_append]
  by_cases htag : w.tag.name = tag
  · subst htag
    rcases hw with hw | hw
    · simp [firstDefinition?, hw]
    · obtain ⟨members, hmembers⟩ := Option.isSome_iff_exists.1 hw
      rw [hmembers, Option.some_or]
  · simp [firstDefinition?, htag]

theorem firstDefinition?_define (w : Mention) (hnew : firstDefinition? ws w.tag.name = none)
    (hw : w.members = some members) (tag : String) :
    firstDefinition? (ws ++ [w]) tag =
      if tag = w.tag.name then some members else firstDefinition? ws tag := by
  rw [firstDefinition?_append]
  by_cases htag : tag = w.tag.name
  · subst htag
    rw [hnew]
    simp [firstDefinition?, hw]
  · simp [firstDefinition?, htag, Ne.symm htag]

/-- A tag with a definition is mentioned. -/
theorem mem_of_firstDefinition? (h : firstDefinition? ws tag = some members) :
    tag ∈ ws.map (·.tag.name) := by
  obtain ⟨w, hw, heq⟩ := List.exists_of_findSome?_eq_some h
  split at heq
  · rename_i htag
    exact htag ▸ List.mem_map_of_mem hw
  · cases heq

end

/-! ## The table in the middle of a walk -/

/-- The entry of a tag while the definitions of the tags `opens` are open. -/
def entryWhile (opens : List String) (ws : List Mention) (tag : String) : StructDef :=
  if tag ∈ opens then ⟨tag, [], true⟩ else entry ws tag

/-- The table has the tags of what was walked, in the order of first mention, and their entries,
while the definitions of the tags `opens` are open. -/
structure StructTable.Holds (opens : List String) (ws : List Mention) (t : StructTable) : Prop where
  order : t.order = (ws.map (·.tag.name)).eraseDups
  entries : ∀ tag, t.get? tag =
    if tag ∈ ws.map (·.tag.name) then some (entryWhile opens ws tag) else none
  opened : ∀ tag ∈ opens, (firstDefinition? ws tag).isSome = true

namespace StructTable.Holds

variable {opens : List String} {ws : List Mention} {t u : StructTable}

theorem empty : Holds [] [] .empty := ⟨rfl, fun _ => rfl, by simp⟩

/-- All entries are listed, in the order of first mention. -/
theorem defs (h : Holds opens ws t) :
    t.defs = (ws.map (·.tag.name)).eraseDups.map (entryWhile opens ws) := by
  rw [StructTable.defs, h.order, List.filterMap_eq_map_iff_forall_eq_some]
  intro tag htag
  rw [h.entries, if_pos (List.mem_eraseDups.1 htag)]

theorem not_open (h : Holds opens ws t) {tag : String} (hnone : firstDefinition? ws tag = none) :
    tag ∉ opens := by
  intro hopen
  have hsome := h.opened tag hopen
  rw [hnone] at hsome
  cases hsome

theorem mentions_iff (h : Holds opens ws t) (tag : String) :
    t.mentions tag = true ↔ tag ∈ ws.map (·.tag.name) := by
  rw [mentions, h.entries]
  split <;> simp [*]

theorem isDefined_eq (h : Holds opens ws t) (tag : String) :
    t.isDefined tag = (firstDefinition? ws tag).isSome := by
  rw [isDefined, h.entries]
  cases hfirst : firstDefinition? ws tag with
  | none =>
    have hopen := h.not_open hfirst
    split <;> simp [entryWhile, entry, hopen, hfirst, StructDef.mentioned]
  | some members =>
    rw [if_pos (mem_of_firstDefinition? hfirst)]
    by_cases hopen : tag ∈ opens <;> simp [entryWhile, entry, hopen, hfirst]

/-- A type that is incomplete was so before. -/
theorem isIncomplete_mono {opens' : List String} {ws' : List Mention} (h : Holds opens ws t)
    (h' : Holds opens' ws' u) (hle : ws <+: ws') :
    (ty : Ty) → u.isIncomplete ty = true → t.isIncomplete ty = true
  | .struct tag, hty => by
    rw [isIncomplete, h'.isDefined_eq] at hty
    rw [isIncomplete, h.isDefined_eq]
    cases hfirst : firstDefinition? ws tag with
    | none => rfl
    | some members =>
      obtain ⟨more, rfl⟩ := hle
      rw [firstDefinition?_of_some hfirst] at hty
      cases hty
  | .array elem _, hty => isIncomplete_mono h h' hle elem hty
  | .int, hty | .char, hty | .pointer _, hty | .function _ _, hty => by cases hty

/-- A specifier that is no first definition mentions its tag and does nothing else. -/
theorem mention (h : Holds opens ws t) {w : Mention}
    (hw : w.members = none ∨ (firstDefinition? ws w.tag.name).isSome = true) :
    Holds opens (ws ++ [w]) (t.mention w.tag.name) := by
  have hfirst := firstDefinition?_concat hw
  have hentry : entryWhile opens (ws ++ [w]) = entryWhile opens ws := by
    funext tag
    rw [entryWhile, entryWhile, entry, entry, hfirst]
  refine ⟨?_, fun tag => ?_, fun tag htag => by rw [hfirst]; exact h.opened tag htag⟩
  · rw [order_mention, h.order, List.map_append, List.map_singleton, eraseDups_concat]
    simp only [h.mentions_iff]
  · rw [get?_mention, h.entries, hentry, List.map_append, List.map_singleton]
    by_cases hmem : tag ∈ ws.map (·.tag.name)
    · rw [if_pos hmem, if_pos (List.mem_append_left _ hmem), Option.some_or]
    · rw [if_neg hmem, Option.none_or]
      by_cases htag : w.tag.name = tag
      · -- a tag that was not mentioned has no definition, so a new entry without members is right
        have hnone : firstDefinition? ws tag = none := by
          cases hd : firstDefinition? ws tag with
          | none => rfl
          | some members => exact absurd (mem_of_firstDefinition? hd) hmem
        have hopen := h.not_open hnone
        simp [htag, entryWhile, entry, hopen, hnone]
      · rw [if_neg htag, if_neg]
        rw [List.mem_append, List.mem_singleton]
        exact fun hor => hor.elim hmem (Ne.symm htag)

/-- A first definition is accepted, and is open then. -/
theorem define (h : Holds opens ws t) {tag : Ident} (members : List Decl)
    (hnew : firstDefinition? ws tag.name = none) :
    ∃ u, (t.mention tag.name).define? tag.name = some u ∧
      Holds (tag.name :: opens) (ws ++ [⟨tag, some members⟩]) u := by
  have hm : Holds opens (ws ++ [⟨tag, none⟩]) (t.mention tag.name) := h.mention (.inl rfl)
  have hmentions : (t.mention tag.name).mentions tag.name = true :=
    (hm.mentions_iff _).2 (by simp)
  have hfirst := firstDefinition?_define ⟨tag, some members⟩ hnew rfl
  have hdefined : ¬ (t.mention tag.name).isDefined tag.name = true := by
    rw [isDefined_mention, h.isDefined_eq, hnew]
    simp
  have horder := hm.order
  have hentries := hm.entries
  rw [List.map_append, List.map_singleton] at horder hentries
  refine ⟨_, by rw [define?, if_neg hdefined, mention_of_mentions hmentions], ?_, ?_, ?_⟩
  · rw [List.map_append, List.map_singleton]
    exact horder
  · intro n
    rw [get?_update, hentries, List.map_append, List.map_singleton]
    by_cases hn : n = tag.name
    · -- the entry of an open tag does not depend on its members
      have htag := h.not_open hnew
      have hopen : firstDefinition? (ws ++ [⟨tag, none⟩]) tag.name = none := by
        rw [firstDefinition?_concat (.inl rfl), hnew]
      simp [hn, entryWhile, entry, htag, hopen, StructDef.mentioned]
    · have hsame : firstDefinition? (ws ++ [⟨tag, none⟩]) n = firstDefinition? ws n :=
        firstDefinition?_concat (.inl rfl) n
      simp [hn, Ne.symm hn, entryWhile, entry, hfirst n, hsame]
  · intro n hn
    rw [hfirst]
    split
    · rfl
    · rename_i hne
      exact h.opened n ((List.mem_cons.1 hn).resolve_left hne)

/-- An open definition is closed by giving it the members that it keeps. -/
theorem giveFields {tag : String} {members : List Decl} (h : Holds (tag :: opens) ws t)
    (hopen : tag ∉ opens) (hfirst : firstDefinition? ws tag = some members) :
    Holds opens ws (t.giveFields tag ((keptMembers [] members).map Decl.field)) := by
  refine ⟨h.order, fun n => ?_, fun n hn => h.opened n (List.mem_cons_of_mem tag hn)⟩
  rw [StructTable.giveFields, get?_update, h.entries]
  by_cases hn : n = tag
  · have hmem := mem_of_firstDefinition? hfirst
    rw [hn, if_pos rfl, if_pos hmem, if_pos hmem]
    simp [entryWhile, entry, hopen, hfirst]
  · simp [hn, Ne.symm hn, entryWhile]

end StructTable.Holds

end MiniC
