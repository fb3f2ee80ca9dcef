import ArgSchema.Proofs.Compilation.Passes
import ArgSchema.Proofs.Registration.Anew
import ArgSchema.Proofs.Resolution.Repeated
import ArgSchema.Proofs.Walk.Operations

/-! Repeated passes: a tree that was registered and resolved is left as it is by the same passes again. -/

namespace ArgSchema

/-- Both passes over a reachable tree succeed, and when they are repeated they leave the very tree that
they left before and report the same as before. -/
theorem Tree.passes_idempotent {tree : Tree} (reachable : tree.Reachable) :
    let built := tree.buildSymbolTable
    let checked := built.next.checkReferences
    let rebuilt := checked.next.buildSymbolTable
    let rechecked := rebuilt.next.checkReferences
    (built.result = .ok () ∧ checked.result = .ok ()) ∧
      (rebuilt.result = .ok () ∧ rechecked.result = .ok ()) ∧
      rechecked.next = checked.next ∧
      rebuilt.reports = built.reports ∧ rechecked.reports = checked.reports := by
  intro built checked rebuilt rechecked
  have forest := reachable.forest
  -- All four passes succeed, as each leaves a well-formed tree.
  obtain ⟨built_ok, filled⟩ := forest.sameSyntax_buildSymbolTable
  have forest' : built.next.Forest := forest.congr filled.links
  obtain ⟨checked_ok, scopes⟩ := forest'.sameScopes_checkReferences
  have forest'' : checked.next.Forest := forest'.congr scopes.syntactic.links
  obtain ⟨rebuilt_ok, refilled⟩ := forest''.sameSyntax_buildSymbolTable
  obtain ⟨rechecked_ok, -⟩ := (forest''.congr refilled.links).sameScopes_checkReferences
  -- Only tables of definitions were changed, and those are cleared before they are filled again.
  have confined : Confined tree.toplevel tree checked.next :=
    forest.buildSymbolTable_retables.confined.trans
      (forest'.confined_checkReferences fun _ => forest.mem_toplevel_of_entry)
  -- So the second registration fills the same tables with the same reports.
  obtain ⟨tables, reports⟩ :=
    forest.buildSymbolTable_anew (filled.trans scopes.syntactic) confined.others
  have again : SameProgress (checked.next, checked.reports) (rechecked.next, rechecked.reports) :=
    forest'.checkReferences_alike tables
  -- Registration leaves all links, so the second resolution finds those of the first.
  have retables := forest''.buildSymbolTable_retables
  have linked : ∀ id, rechecked.next.slots id = checked.next.slots id :=
    forest'.slots_checkReferences_again tables retables.slots
  have size : rechecked.next.nodes.size = checked.next.nodes.size :=
    ((forest''.congr refilled.links).confined_checkReferences fun entry member =>
      List.mem_map_of_mem (f := (·.node)) member).size.trans retables.confined.size
  exact ⟨⟨built_ok, checked_ok⟩, ⟨rebuilt_ok, rechecked_ok⟩, again.tables.eq_of_slots size linked,
    reports, again.reports⟩

namespace Walk

/-- A name that is taken and a type that is not defined are reported both times. -/
theorem reports_of_second_passes :
    ∃ tree : Tree, tree.Reachable ∧
      let checked := tree.buildSymbolTable.next.checkReferences
      checked.reports.length = 1 ∧
      let rebuilt := checked.next.buildSymbolTable
      rebuilt.reports.length = 1 ∧ rebuilt.next.checkReferences.reports = checked.reports ∧
        rebuilt.next.checkReferences.next = checked.next := by
  -- The tree has one fault for each pass to report.
  let fill : Walk Unit Unit := do
    let file ← alloc .file default
    let first ← alloc (.typeDefinition .empty) default
    let name ← alloc (.identifier "t" .type) default
    let second ← alloc (.positional false false .empty) default
    let label ← alloc (.identifier "t" .identifier) default
    let types ← alloc (.types [none]) default
    let unknown ← alloc (.identifier "u" .type) default
    change (·.addChild file first)
    change (·.addChild first name)
    change (·.addChild file second)
    change (·.addChild second label)
    change (·.addChild second types)
    change (·.addChild types unknown)
    change (·.setRoot file)
  let tree := (fill.after (Tree.empty, ())).1
  have reachable : tree.Reachable := by
    refine ⟨Unit, Unit, fill, (), ?_, rfl⟩
    exact .bind (.alloc _ _) fun file => .bind (.alloc _ _) fun first =>
      .bind (.alloc _ _) fun name => .bind (.alloc _ _) fun second =>
      .bind (.alloc _ _) fun label => .bind (.alloc _ _) fun types =>
      .bind (.alloc _ _) fun unknown =>
      .bind (.addChild _ _) fun _ => .bind (.addChild _ _) fun _ =>
      .bind (.addChild _ _) fun _ => .bind (.addChild _ _) fun _ =>
      .bind (.addChild _ _) fun _ => .bind (.addChild _ _) fun _ => .setRoot _
  -- The second definition has the name of the first, and no type is called as the list says.
  have counted : (tree.buildSymbolTable.reports.length,
      tree.buildSymbolTable.next.checkReferences.reports.length) = (1, 1) := by decide +kernel
  obtain ⟨one, other⟩ := Prod.mk.inj counted
  obtain ⟨-, -, same, again, again'⟩ := Tree.passes_idempotent reachable
  exact ⟨tree, reachable, other, (congrArg _ again).trans one, again', same⟩

end Walk

end ArgSchema
