import MiniC.Proofs.ForwardDeclaration

/-!
# Calls on the registry of struct tags

A call mentions a tag, begins its definition or sets its members (`TagCall`). Calls may come in any
order and with any tags, so also in ways that no program leads to: members are set for a tag that is
unknown, or for one that has only been mentioned.

Some calls determine two things apart from each other: the tags in the order of first mention, and
for each tag the entry that the calls with this tag make of nothing (`TagCall.entryAfter`). A table
that has this list and these entries, the one in step with the other, `Reflects` the calls. One call
keeps that up (`Reflects.call`), so it holds of the table that calls lead to (`reflects_replay`).
What the table lists, which tags are complete in it and which definitions it accepts are then facts
about the calls.
-/

namespace MiniC

/-! ## Calls -/

/-- A call on the registry. -/
inductive TagCall where
  | mention (tag : String)
  | define (tag : String)
  | giveFields (tag : String) (fields : List Field)

namespace TagCall

def tag : TagCall → String
  | .mention tag | .define tag | .giveFields tag _ => tag

/-- The call gives its tag an entry, if there is none. -/
def mentions : TagCall → Bool
  | .mention _ | .define _ => true
  | .giveFields _ _ => false

/-- The call begins the definition of its tag, if there is none. -/
def defines : TagCall → Bool
  | .define _ => true
  | .mention _ | .giveFields _ _ => false

/-- The tags of the calls of a kind, in order. -/
def tagsOf (kind : TagCall → Bool) (calls : List TagCall) : List String :=
  (calls.filter kind).map tag

/-- What the call makes of the entry of its tag, where there may be none. -/
def revise : TagCall → Option StructDef → Option StructDef
  | .mention tag, e => e.or (some (.mentioned tag))
  | .define tag, e =>
    if e.any (·.complete) then e else some (e.getD (.mentioned tag)).begin
  | .giveFields _ fields, e => e.map fun d => { d with fields := fields }

/-- What the calls with a tag make of its entry, where there is none at first. -/
def entryAfter (calls : List TagCall) (tag : String) : Option StructDef :=
  (calls.filter (·.tag = tag)).foldl (fun e c => c.revise e) none

end TagCall

namespace StructTable

/-- A definition of the tag, which is mentioned first, is accepted. -/
def accepts (t : StructTable) (tag : String) : Bool := ((t.mention tag).define? tag).isSome

/-- The table after a call. A definition mentions its tag, whether it is accepted then or not. -/
def call (t : StructTable) : TagCall → StructTable
  | .mention tag => t.mention tag
  | .define tag => ((t.mention tag).define? tag).getD (t.mention tag)
  | .giveFields tag fields => t.giveFields tag fields

/-- The table that some calls in order lead to. -/
def replay (calls : List TagCall) : StructTable := calls.foldl call .empty

/-- The tags of the definitions that are accepted among some calls in order. -/
def accepted (t : StructTable) : List TagCall → List String
  | [] => []
  | c :: more =>
    (if c.defines && t.accepts c.tag then [c.tag] else []) ++ (t.call c).accepted more

end StructTable

/-! ## What calls make of an entry -/

namespace TagCall

variable (calls : List TagCall) (c : TagCall)

theorem tagsOf_concat (kind : TagCall → Bool) :
    tagsOf kind (calls ++ [c]) = tagsOf kind calls ++ if kind c then [c.tag] else [] := by
  rw [tagsOf, List.filter_append, List.map_append]
  cases h : kind c <;> simp [tagsOf, h]

/-- One more tag comes last where it is new. -/
theorem eraseDups_tagsOf_concat (kind : TagCall → Bool) :
    (tagsOf kind (calls ++ [c])).eraseDups =
      (tagsOf kind calls).eraseDups ++
        if kind c = true ∧ c.tag ∉ tagsOf kind calls then [c.tag] else [] := by
  rw [tagsOf_concat]
  cases kind c with
  | false => simp
  | true =>
    rw [if_pos rfl, eraseDups_concat]
    by_cases hmem : c.tag ∈ tagsOf kind calls <;> simp [hmem]

theorem entryAfter_concat (tag : String) :
    entryAfter (calls ++ [c]) tag =
      if c.tag = tag then c.revise (entryAfter calls tag) else entryAfter calls tag := by
  rw [entryAfter, List.filter_append, List.foldl_append]
  by_cases h : c.tag = tag <;> simp [h, entryAfter]

/-- A call that begins a definition makes the entry complete, and no call makes it incomplete. -/
theorem complete_revise (e : Option StructDef) :
    (c.revise e).any (·.complete) = (e.any (·.complete) || c.defines) := by
  cases c with
  | mention _ => cases e <;> simp [revise, defines, StructDef.mentioned]
  | define _ =>
    rw [revise, defines, Bool.or_true]
    split
    · assumption
    · rfl
  | giveFields _ _ => cases e <;> simp [revise, defines]

theorem complete_entryAfter_iff (tag : String) :
    (entryAfter calls tag).any (·.complete) = true ↔ tag ∈ tagsOf defines calls := by
  induction calls using List.reverseRecOn with
  | nil => simp [entryAfter, tagsOf]
  | append_singleton calls c ih =>
    rw [entryAfter_concat, tagsOf_concat, List.mem_append, ← ih]
    -- a call with another tag adds nothing to either side
    by_cases htag : c.tag = tag
    · rw [if_pos htag, complete_revise]
      cases c.defines <;> simp [htag]
    · rw [if_neg htag]
      cases c.defines <;> simp [Ne.symm htag]

end TagCall

/-! ## The table after a call -/

namespace StructTable

variable (t : StructTable)

theorem accepts_eq (tag : String) : t.accepts tag = !t.isDefined tag := by
  rw [accepts, define?_eq, isDefined_mention]
  cases t.isDefined tag <;> rfl

/-- A definition that is refused changes nothing. -/
theorem call_define (tag : String) :
    t.call (.define tag) = if t.isDefined tag then t else t.begin tag := by
  rw [call, define?_eq, isDefined_mention]
  split
  · next h => exact mention_of_mentions (mentions_of_isDefined h)
  · rw [Option.getD_some, begin, mention_of_mentions (t.mentions_mention tag), begin]

/-- A tag comes last in the list where it gets an entry. -/
theorem order_call (c : TagCall) :
    (t.call c).order =
      t.order ++ if c.mentions = true ∧ ¬ t.mentions c.tag = true then [c.tag] else [] := by
  cases c with
  | mention tag =>
    rw [call, order_mention]
    by_cases h : t.mentions tag = true <;> simp [TagCall.mentions, TagCall.tag, h]
  | define tag =>
    rw [call_define]
    split
    · next h => simp [TagCall.tag, mentions_of_isDefined h]
    · have horder : (t.begin tag).order = (t.mention tag).order := rfl
      rw [horder, order_mention]
      by_cases h : t.mentions tag = true <;> simp [TagCall.mentions, TagCall.tag, h]
  | giveFields tag fields =>
    have horder : (t.giveFields tag fields).order = t.order := rfl
    simp [call, TagCall.mentions, horder]

/-- A definition that begins makes the entry of its tag complete, and empty. -/
theorem get?_begin (tag n : String) :
    (t.begin tag).get? n =
      if tag = n then some ((t.get? n).getD (.mentioned tag)).begin else t.get? n := by
  rw [begin, get?_update, get?_mention]
  split
  · next h =>
    subst h
    cases t.get? tag <;> rfl
  · rw [Option.or_none]

/-- A call changes the entry of its tag and no other. -/
theorem get?_call (c : TagCall) (n : String) :
    (t.call c).get? n = if c.tag = n then c.revise (t.get? n) else t.get? n := by
  cases c with
  | mention tag =>
    rw [call, get?_mention]
    by_cases h : tag = n <;> simp [TagCall.tag, TagCall.revise, h]
  | define tag =>
    rw [call_define]
    by_cases h : tag = n
    · subst h
      rw [TagCall.tag, if_pos rfl, TagCall.revise, isDefined]
      split
      · rfl
      · rw [get?_begin, if_pos rfl]
    · rw [TagCall.tag, if_neg h]
      split
      · rfl
      · rw [get?_begin, if_neg h]
  | giveFields tag fields => exact t.get?_update tag n _

theorem InStep.call {t : StructTable} (h : t.InStep) (c : TagCall) : (t.call c).InStep := by
  cases c with
  | mention tag => exact h.mention tag
  | define tag =>
    rw [call_define]
    split
    · exact h
    · exact (h.mention tag).update tag fun _ => rfl
  | giveFields tag fields => exact h.update tag fun _ => rfl

/-! ## The table after some calls -/

/-- The table lists the tags that the calls mention, in the order of first mention, and has the
entries that the calls make. -/
structure Reflects (calls : List TagCall) (t : StructTable) : Prop where
  inStep : t.InStep
  order : t.order = (TagCall.tagsOf TagCall.mentions calls).eraseDups
  entries : ∀ tag, t.get? tag = TagCall.entryAfter calls tag

namespace Reflects

variable {calls : List TagCall} {t : StructTable}

theorem empty : Reflects [] .empty := ⟨.empty, rfl, fun _ => rfl⟩

theorem call (h : Reflects calls t) (c : TagCall) : Reflects (calls ++ [c]) (t.call c) := by
  refine ⟨h.inStep.call c, ?_, fun tag => ?_⟩
  · rw [order_call, TagCall.eraseDups_tagsOf_concat, h.order]
    simp only [h.inStep.mentions_iff, h.order, List.mem_eraseDups]
  · rw [get?_call, TagCall.entryAfter_concat, h.entries]

/-- The tags that are complete are those of the definitions. -/
theorem isDefined_iff (h : Reflects calls t) (tag : String) :
    t.isDefined tag = true ↔ tag ∈ TagCall.tagsOf TagCall.defines calls := by
  rw [isDefined, h.entries]
  exact TagCall.complete_entryAfter_iff calls tag

theorem isIncomplete_iff (h : Reflects calls t) (ty : Ty) :
    t.isIncomplete ty = true ↔
      ∃ tag, ty.tag? = some tag ∧ tag ∉ TagCall.tagsOf TagCall.defines calls := by
  simp [isIncomplete_eq, Option.any_eq_true, ← h.isDefined_iff]

end Reflects

theorem replay_concat (calls : List TagCall) (c : TagCall) :
    replay (calls ++ [c]) = (replay calls).call c := List.foldl_concat _ _ _ _

theorem reflects_replay (calls : List TagCall) : Reflects calls (replay calls) := by
  induction calls using List.reverseRecOn with
  | nil => exact .empty
  | append_singleton calls c ih =>
    rw [replay_concat]
    exact ih.call c

theorem accepted_concat (t : StructTable) (calls : List TagCall) (c : TagCall) :
    t.accepted (calls ++ [c]) = t.accepted calls ++
      if c.defines && (calls.foldl call t).accepts c.tag then [c.tag] else [] := by
  induction calls generalizing t with
  | nil => simp [accepted]
  | cons b calls ih =>
    rw [List.cons_append, accepted, ih, accepted, List.append_assoc, List.foldl_cons]

/-- Of the definitions of a tag the first is accepted. -/
theorem accepted_empty (calls : List TagCall) :
    empty.accepted calls = (TagCall.tagsOf TagCall.defines calls).eraseDups := by
  induction calls using List.reverseRecOn with
  | nil => rfl
  | append_singleton calls c ih =>
    rw [accepted_concat, ih, TagCall.eraseDups_tagsOf_concat, accepts_eq]
    -- the table refuses the tags that are complete in it, those of the definitions so far
    have hdefined := (reflects_replay calls).isDefined_iff c.tag
    rw [replay] at hdefined
    simp [← hdefined]

end StructTable

open StructTable (replay)

/-- **The registry after any calls.** The list of tags has the keys of the entries, each once, in
the order of first mention. An entry has the tag that it stands under, and it is what the calls with
this tag make of it. So going through the list gives every entry once, in this order. Of the
definitions of a tag the first is accepted and no other, and one that is refused changes nothing.
Whatever calls follow, a tag that is complete stays so, and a type that is incomplete after them was
so before. -/
theorem calls_keep_registry_consistent (calls : List TagCall) :
    ((replay calls).order.Nodup ∧
      (replay calls).order = (TagCall.tagsOf TagCall.mentions calls).eraseDups ∧
      ∀ tag, tag ∈ (replay calls).order ↔ tag ∈ (replay calls).entries.keys) ∧
    ((∀ b ∈ (replay calls).entries.bindings, b.2.tag = b.1) ∧
      ∀ tag, (replay calls).get? tag = TagCall.entryAfter calls tag) ∧
    ((replay calls).defs.map (·.tag) = (replay calls).order ∧
      (replay calls).defs.Perm ((replay calls).entries.bindings.map (·.2))) ∧
    ((StructTable.empty.accepted calls).Nodup ∧
      (∀ tag, (replay calls).accepts tag = true ↔ tag ∉ TagCall.tagsOf TagCall.defines calls) ∧
      ∀ tag, (replay calls).accepts tag = false →
        replay (calls ++ [.define tag]) = replay calls) ∧
    ∀ more : List TagCall,
      (∀ tag, (replay calls).isDefined tag = true →
        (replay (calls ++ more)).isDefined tag = true) ∧
      ∀ ty, (replay (calls ++ more)).isIncomplete ty = true →
        (replay calls).isIncomplete ty = true := by
  have h := StructTable.reflects_replay calls
  refine ⟨⟨h.inStep.nodup, h.order, h.inStep.mem_order_iff⟩, ⟨fun b hb => ?_, h.entries⟩,
    ⟨h.inStep.tags_defs, h.inStep.perm_defs⟩, ⟨?_, fun tag => ?_, fun tag hrefused => ?_⟩,
    fun more => ?_⟩
  · exact h.inStep.tag_eq b.1 b.2 (Dict.get?_eq_some_iff.2 hb)
  · rw [StructTable.accepted_empty]
    exact nodup_eraseDups _
  · rw [StructTable.accepts_eq, ← h.isDefined_iff, Bool.not_eq_true', Bool.not_eq_true]
  · rw [StructTable.accepts_eq, Bool.not_eq_false'] at hrefused
    rw [StructTable.replay_concat, StructTable.call_define, if_pos hrefused]
  · have hmore := StructTable.reflects_replay (calls ++ more)
    -- more calls have all the definitions that there were
    have hdefinitions : TagCall.tagsOf TagCall.defines calls ⊆
        TagCall.tagsOf TagCall.defines (calls ++ more) := by
      simp [TagCall.tagsOf]
    constructor
    · intro tag htag
      exact (hmore.isDefined_iff tag).2 (hdefinitions ((h.isDefined_iff tag).1 htag))
    · intro ty hty
      obtain ⟨tag, htag, hnew⟩ := (hmore.isIncomplete_iff ty).1 hty
      exact (h.isIncomplete_iff ty).2 ⟨tag, htag, fun hold => hnew (hdefinitions hold)⟩

/-- Members are set for a tag that is unknown and for one that is only mentioned, and a tag is
defined twice. -/
def tangledCalls : List TagCall :=
  [.giveFields "C" [⟨"z", .int⟩], .mention "B", .define "A", .giveFields "A" [⟨"x", .int⟩],
    .giveFields "B" [⟨"y", .char⟩], .define "A", .mention "B"]

theorem tangledCalls_consistent :
    (replay tangledCalls).order = ["B", "A"] ∧
    (replay tangledCalls).defs.map (·.tag) = ["B", "A"] ∧
    (replay tangledCalls).get? "B" = some ⟨"B", [⟨"y", .char⟩], false⟩ ∧
    ((replay tangledCalls).accepts "A" = false ∧
      replay (tangledCalls ++ [.define "A"]) = replay tangledCalls) ∧
    ((replay tangledCalls).isDefined "A" = true ∧
      (replay (tangledCalls ++ [.define "B"])).isDefined "A" = true) ∧
    ((replay (tangledCalls ++ [.mention "C"])).isIncomplete (.array (.struct "B") 2) = true ∧
      (replay tangledCalls).isIncomplete (.array (.struct "B") 2) = true) ∧
    (replay (tangledCalls ++ [.define "B"])).isIncomplete (.array (.struct "B") 2) = false := by
  obtain ⟨⟨-, hmentions, -⟩, ⟨-, hentries⟩, ⟨htags, -⟩, ⟨-, -, hrefused⟩, hmore⟩ :=
    calls_keep_registry_consistent tangledCalls
  have horder : (replay tangledCalls).order = ["B", "A"] := hmentions.trans (by decide)
  have haccepts : (replay tangledCalls).accepts "A" = false := by decide
  have hdefined : (replay tangledCalls).isDefined "A" = true := by decide
  have hincomplete :
      (replay (tangledCalls ++ [.mention "C"])).isIncomplete (.array (.struct "B") 2) = true := by
    decide
  exact ⟨horder, htags.trans horder, (hentries "B").trans (by decide),
    ⟨haccepts, hrefused "A" haccepts⟩, ⟨hdefined, (hmore _).1 "A" hdefined⟩,
    ⟨hincomplete, (hmore _).2 _ hincomplete⟩, by decide⟩

end MiniC
