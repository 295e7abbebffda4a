import MiniC.Proofs.Lockstep.Walk

/-!
# Only the equality of names matters

Variables and functions, struct tags and members have names in three spaces of their own, and the
analysis never looks at a name but to compare it with another one of its space. So the analysis of a
relabeled program is the relabeled analysis (`run_commutes_with_relabeling`): the names of each
space may be exchanged for others independently, and the spans moved anywhere.

All the runs of a program, one for each relabeling, are in lockstep: their states are one state,
relabeled.
-/

namespace MiniC

/-- Runs whose states are one state, relabeled. -/
def Lockstep.ofLabels (labels : List Label) : Lockstep Relabeling where
  label ρ := ρ
  Allowed l := l ∈ labels
  Tables t := ∃ t₀ : StructTable, t = fun ρ => t₀.relabel ρ
  Files f := ∃ f₀ : Scope, f = fun ρ => f₀.relabel ρ
  Orders g := ∃ g₀ : List String, g = fun ρ => g₀.map (ρ.name .ordinary)
  Queues q := ∃ q₀ : List TypedIdent, (∀ d ∈ q₀, ⟨.file, d.ident⟩ ∈ labels) ∧
    q = fun ρ => q₀.map (TypedIdent.relabel ρ .ordinary)
  isDefined := by
    rintro _ ⟨t, rfl⟩ tag -
    exact ⟨t.isDefined tag.name, fun ρ => t.isDefined_relabel ρ tag.name⟩
  mention := by
    rintro _ ⟨t, rfl⟩ tag -
    exact ⟨t.mention tag.name, funext fun ρ => t.mention_relabel ρ tag.name⟩
  begin := by
    rintro _ ⟨t, rfl⟩ tag - -
    exact ⟨t.begin tag.name, funext fun ρ => t.begin_relabel ρ tag.name⟩
  giveFields := by
    rintro _ ⟨t, rfl⟩ tag - - fields
    exact ⟨t.giveFields tag.name fields, funext fun ρ => t.giveFields_relabel ρ tag.name fields⟩
  get? := by
    rintro _ ⟨s, rfl⟩ l - -
    exact ⟨s.get? l.ident.name, fun ρ => s.get?_relabel ρ l.ident.name⟩
  bind := by
    rintro _ ⟨s, rfl⟩ id - x -
    exact ⟨s.bind x, funext fun ρ => s.bind_relabel ρ x⟩
  define := by
    rintro _ ⟨s, rfl⟩ id - ty
    exact ⟨s.update id.name (Symbol.define ty),
      funext fun ρ => s.update_relabel ρ id.name fun _ => rfl⟩
  record := by
    rintro _ ⟨g, rfl⟩ id -
    exact ⟨recordName g id.name, funext fun ρ => recordName_relabel ρ .ordinary g id.name⟩
  enqueue := by
    rintro _ ⟨q, hq, rfl⟩ d hd
    refine ⟨q ++ [d], ?_, by simp only [List.map_append, List.map_singleton]⟩
    rw [List.forall_mem_append, List.forall_mem_singleton]
    exact ⟨hq, hd⟩

/-- The waiting globals of a relabeled state that are overdue are those of the state, relabeled. -/
theorem State.overdue_relabel {s : State} {t : StructTable} {q : List TypedIdent} (ρ : Relabeling)
    (ht : s.structs = t.relabel ρ) (hq : s.pending = q.map (TypedIdent.relabel ρ .ordinary)) :
    s.overdue = (q.filter (t.isIncomplete ·.ty)).map (TypedIdent.relabel ρ .ordinary) := by
  rw [overdue, ht, hq, List.filter_map]
  refine congrArg _ (List.filter_congr fun d _ => ?_)
  exact t.isIncomplete_relabel ρ d.ty

/-- The symbols of a relabeled state are those of the state, relabeled. -/
theorem State.symbols_relabel {s : State} {f : Scope} {g : List String} (ρ : Relabeling)
    (hf : s.scopes.file = f.relabel ρ) (hg : s.globals = g.map (ρ.name .ordinary)) :
    s.symbols = (g.filterMap f.get?).map (Symbol.relabel ρ) := by
  rw [symbols, hg, List.filterMap_map, List.map_filterMap]
  refine List.filterMap_congr fun n _ => ?_
  rw [Function.comp_apply, ScopeChain.findFile?, hf, Scope.get?_relabel]

namespace Program

/-- The runs of all relabelings have the same findings, at identifiers of the program, and come to
the same analysis. -/
theorem run_relabel (p : Program) :
    ∃ (findings : List Finding) (a : Analysis), (∀ f ∈ findings, f.label ∈ p.labels) ∧
      ∀ ρ, (p.relabel ρ).run.errors = findings.map (Finding.error ρ) ∧
        (p.relabel ρ).run.result = a.relabel ρ := by
  let L := Lockstep.ofLabels p.labels
  have hstart : L.Related 0 fun _ => .initial :=
    ⟨⟨.empty, rfl⟩, ⟨.empty, rfl⟩, ⟨[], rfl⟩, ⟨[], by simp, rfl⟩, [], rfl, fun _ => rfl⟩
  have hwalk := checkItems_steps (L := L) p.items
    (fun item hitem l hl => List.mem_flatMap.2 ⟨item, hitem, hl⟩) _ hstart
  obtain ⟨fs, hfs, herrors⟩ := hwalk.findings
  obtain ⟨t, ht⟩ := hwalk.state.tables
  obtain ⟨f, hf⟩ := hwalk.state.files
  obtain ⟨g, hg⟩ := hwalk.state.orders
  obtain ⟨q, hq, hqueue⟩ := hwalk.state.queues
  -- After the last item, the overdue globals add their findings.
  let late : List Finding := (q.filter (t.isIncomplete ·.ty)).map fun d =>
    ⟨.incompleteType, ⟨.file, d.ident⟩⟩
  refine ⟨fs ++ late, ⟨g.filterMap f.get?, t⟩, ?_, fun ρ => ⟨?_, ?_⟩⟩
  · rw [List.forall_mem_append]
    refine ⟨hfs, fun g hg => ?_⟩
    obtain ⟨d, hd, rfl⟩ := List.mem_map.1 hg
    exact hq d (List.mem_of_mem_filter hd)
  · rw [errors_run, List.map_append]
    refine congrArg₂ (· ++ ·) (herrors ρ) ?_
    have hlate : (stateAfter (p.relabel ρ).items).overdue = _ :=
      State.overdue_relabel ρ (congrFun ht ρ) (congrFun hqueue ρ)
    rw [deferred, errors_settlePending, hlate, List.map_map, List.map_map]
    rfl
  · have hsymbols := (p.relabel ρ).symbols_run.trans
      (State.symbols_relabel ρ (congrFun hf ρ) (congrFun hg ρ))
    have hstructs := (p.relabel ρ).structs_run.trans (congrFun ht ρ)
    exact congrArg₂ Analysis.mk hsymbols hstructs

end Program

/-- **Names are compared and nothing else.** The errors of a run are findings at identifiers of the
program. Under any other names, different ones for different names of a space, and at any other
spans, the run reports the same findings in the same order, each at its identifier as it is now, and
comes to the same symbols and struct tags, relabeled. -/
theorem run_commutes_with_relabeling (p : Program) :
    ∃ findings : List Finding, (∀ f ∈ findings, f.label ∈ p.labels) ∧
      p.run.errors = findings.map (fun f => .atIdent f.kind f.label.ident) ∧
      ∀ ρ : Relabeling, (p.relabel ρ).run.errors = findings.map (Finding.error ρ) ∧
        (p.relabel ρ).run.result = p.run.result.relabel ρ := by
  obtain ⟨findings, a, hlabels, h⟩ := p.run_relabel
  have hrefl := h .refl
  rw [p.relabel_refl, a.relabel_refl] at hrefl
  refine ⟨findings, hlabels, hrefl.1, fun ρ => ⟨(h ρ).1, ?_⟩⟩
  rw [(h ρ).2, hrefl.2]

end MiniC
