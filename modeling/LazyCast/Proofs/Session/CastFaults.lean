import LazyCast.Cast.Builtin
import LazyCast.Proofs.Cast.Layers
import LazyCast.Proofs.Orchestrator.Faults
import LazyCast.Proofs.Session.Office
/-!
Which faults a cast answers with. Cast functions of the library complain about the value at hand and
never about the cast as such, so the faults of the latter sort are raised before a ledger is touched.
-/
namespace LazyCast

namespace CastTable

def IsBuiltin (f : CastFunction) : Prop := f = keepHistogram ∨ ∃ type, f = convertTo type

def AllBuiltin (t : CastTable) : Prop := ∀ step, t.Lists step → IsBuiltin step.2

def Plain (t : CastTable) : Prop := ∀ step, t.Lists step →
  step.2 = convertTo step.1 ∨ step = ("sample", keepHistogram)

variable {t : CastTable}

theorem nextLayer_lists {layer : List Trail}
    (taken : ∀ trail ∈ layer, ∀ step ∈ trail.taken, t.Lists step) (seen : List TypeName) :
    ∀ next ∈ (t.nextLayer seen layer).2, ∀ step ∈ next.taken, t.Lists step := by
  intro next mem step among
  rw [nextLayer_eq] at mem
  have candidate := (firsts_sublist seen _).subset mem
  obtain ⟨trail, inside, last, cast, rfl⟩ := mem_candidates.mp candidate
  rcases List.mem_cons.mp among with rfl | among
  · exact lists_outgoing cast
  · exact taken trail inside step among

theorem search_lists {target : TypeName} {hops : Nat} {seen : List TypeName} {layer : List Trail}
    (taken : ∀ trail ∈ layer, ∀ step ∈ trail.taken, t.Lists step) {found : Trail}
    (searched : t.search target hops seen layer = some found) :
    ∀ step ∈ found.taken, t.Lists step := by
  induction hops generalizing seen layer with
  | zero => cases searched
  | succ hops ih =>
    have next := nextLayer_lists taken seen
    rw [search] at searched
    dsimp only at searched
    split at searched
    · rename_i trail here
      cases searched
      exact next _ (List.mem_of_find?_eq_some here)
    · exact ih next searched

theorem compile_lists {source target : TypeName} {chain : CastChain}
    (compiled : t.compile source target = .ok chain) : ∀ step ∈ chain.steps, t.Lists step := by
  unfold compile at compiled
  split at compiled
  · rename_i f found
    cases compiled
    intro step mem
    rw [List.mem_singleton.mp mem]
    exact lists_find? found
  · split at compiled
    · cases compiled
    · split at compiled
      · rename_i chain' shortest
        cases compiled
        obtain ⟨trail, searched, rfl⟩ := Option.map_eq_some_iff.mp shortest
        intro step mem
        have nothing : ∀ trail ∈ [(⟨source, []⟩ : Trail)], ∀ step ∈ trail.taken, t.Lists step := by
          simp
        exact search_lists nothing searched step (List.mem_reverse.mp mem)
      · cases compiled

theorem IsBuiltin.spares {bad : Fault → Bool} {f : CastFunction} (builtin : IsBuiltin f)
    (castable : ∀ type v, bad (.reading type (.notCastable v)) = false)
    (fits : ∀ v type, bad (.overflow v type) = false) (v : Value) : Spares bad (f v) := by
  rcases builtin with rfl | ⟨type, rfl⟩
  · unfold keepHistogram
    split
    · exact spares_ok _
    · exact spares_error (castable _ _)
  have integer : Spares bad (v.integerFor type) := by
    unfold Value.integerFor
    split
    · exact spares_ok _
    · split
      · exact spares_error (castable _ _)
      · split
        · exact spares_ok _
        · exact spares_error (fits _ _)
  have fitted : ∀ fit, Spares bad (v.fitted type fit) := by
    intro fit
    refine integer.bind fun n => ?_
    split
    · exact spares_ok _
    · exact spares_error (fits _ _)
  have float : Spares bad (v.floatFor type) := by
    unfold Value.floatFor
    split
    · exact spares_ok _
    · exact spares_error (castable _ _)
  unfold convertTo Value.convert
  split
  · exact spares_ok _
  · exact fitted _
  · exact fitted _
  · exact fitted _
  · exact fitted _
  · exact fitted _
  · exact float.map _
  · exact float.map _
  · exact float.map _
  · exact spares_error (castable _ _)

theorem spares_apply {bad : Fault → Bool} {chain : CastChain}
    (each : ∀ step ∈ chain.steps, ∀ v, Spares bad (step.2 v)) (v : Value) :
    Spares bad (chain.apply v) := by
  unfold CastChain.apply
  generalize chain.steps = steps at each
  induction steps generalizing v with
  | nil => exact spares_ok v
  | cons step rest ih =>
    rw [List.foldlM_cons]
    exact (each step List.mem_cons_self v).bind fun v =>
      ih v fun s mem => each s (List.mem_cons_of_mem _ mem)

theorem AllBuiltin.noCastFault_apply (builtin : t.AllBuiltin) {chain : CastChain}
    (listed : ∀ step ∈ chain.steps, t.Lists step) (v : Value) : NoCastFault (chain.apply v) :=
  spares_apply (fun step mem =>
    (builtin step (listed step mem)).spares (fun _ _ => rfl) fun _ _ => rfl) v

theorem lists_register {source target : TypeName} {f : CastFunction}
    {step : TypeName × CastFunction} (listed : (t.register source target f).Lists step) :
    t.Lists step ∨ step = (target, f) := by
  obtain ⟨targets, among, inside⟩ := listed
  obtain ⟨e, mem, rfl⟩ := List.mem_map.mp among
  rcases Table.mem_update mem with old | rfl | ⟨earlier, old, rfl⟩
  · exact Or.inl ⟨e.2, List.mem_map_of_mem old, inside⟩
  · rcases Table.mem_insert inside with rfl | no
    · exact Or.inr rfl
    · cases no
  · rcases Table.mem_insert inside with rfl | inside
    · exact Or.inr rfl
    · exact Or.inl ⟨earlier, List.mem_map_of_mem old, inside⟩

theorem AllBuiltin.register (builtin : t.AllBuiltin) (source target : TypeName)
    {f : CastFunction} (own : IsBuiltin f) : (t.register source target f).AllBuiltin := by
  intro step listed
  rcases lists_register listed with old | rfl
  · exact builtin step old
  · exact own

theorem Plain.register (plain : t.Plain) (source : TypeName) {target : TypeName} {f : CastFunction}
    (own : f = convertTo target ∨ (target, f) = ("sample", keepHistogram)) :
    (t.register source target f).Plain := by
  intro step listed
  rcases lists_register listed with old | rfl
  · exact plain step old
  · exact own

theorem plain_builtin : CastTable.builtin.Plain := by
  have conversions : ∀ {t : CastTable}, t.Plain → ∀ source targets,
      (t.registerConversions source targets).Plain := by
    intro t plain source targets
    unfold registerConversions
    induction targets generalizing t with
    | nil => exact plain
    | cons target rest ih => exact ih (plain.register source (Or.inl rfl))
  have classical : ∀ {t : CastTable}, t.Plain → ∀ casts : List (TypeName × List TypeName),
      (casts.foldl (fun t c => t.registerConversions c.1 c.2) t).Plain := by
    intro t plain casts
    induction casts generalizing t with
    | nil => exact plain
    | cons c rest ih => exact ih (conversions plain c.1 c.2)
  have quantum : ∀ {t : CastTable}, t.Plain → ∀ sources : List TypeName,
      (sources.foldl (fun t source => (t.registerConversions source quantumTargets).register source
        "sample" keepHistogram) t).Plain := by
    intro t plain sources
    induction sources generalizing t with
    | nil => exact plain
    | cons source rest ih =>
      exact ih ((conversions plain source quantumTargets).register source (Or.inr rfl))
  have nothing : CastTable.empty.Plain := by
    rintro step ⟨targets, mem, _⟩
    cases mem
  unfold CastTable.builtin
  exact quantum (classical nothing classicalCasts) quantumSources

theorem allBuiltin_builtin : CastTable.builtin.AllBuiltin := by
  intro step listed
  rcases plain_builtin step listed with conversion | rfl
  · exact Or.inr ⟨step.1, conversion⟩
  · exact Or.inl rfl

end CastTable

theorem CastPlan.compile_cases {types : TypeTable} {casts : CastTable} {running : OrderedSet Kind}
    {source target : TypeName} {plan : CastPlan}
    (compiled : CastPlan.compile types casts running source target = .ok plan) :
    (∃ chain, casts.compile source target = .ok chain ∧ plan = .convert source target chain) ∨
      ∃ d, types.require target = .ok d ∧ plan = .encode source target d.kind d.width := by
  unfold CastPlan.compile at compiled
  obtain ⟨s, _, compiled⟩ := Except.bind_eq_ok.mp compiled
  obtain ⟨t, required, compiled⟩ := Except.bind_eq_ok.mp compiled
  cases known : running.contains s.kind <;> cases known' : running.contains t.kind <;>
    cases eager : t.kind.isClassical <;> cases eager' : s.kind.isClassical <;>
    simp only [known, known', eager, eager', Bool.not_true, Bool.not_false, Bool.false_eq_true,
      if_true, if_false] at compiled
  all_goals first
    | cases compiled
      exact Or.inr ⟨t, required, rfl⟩
    | cases compiled
    | obtain ⟨chain, made, compiled⟩ := Except.bind_eq_ok.mp compiled
      cases compiled
      exact Or.inl ⟨chain, made, rfl⟩

theorem CastPlan.compile_convert {types : TypeTable} {casts : CastTable}
    {running : OrderedSet Kind} {source target from_ into : TypeName} {chain : CastChain}
    (compiled : CastPlan.compile types casts running source target =
      .ok (.convert from_ into chain)) : casts.compile source target = .ok chain := by
  rcases compile_cases compiled with ⟨_, made, same⟩ | ⟨_, _, no⟩
  · cases same
    exact made
  · cases no

namespace Session
variable {s : Session}

theorem noCastFault_readSample {chain : CastChain} (applied : ∀ v, NoCastFault (chain.apply v))
    (sample : Sample) (qubits : List Qubit) : NoCastFault (s.readSample sample qubits chain) := by
  have interpreted : ∀ sample target, NoCastFault (s.interpreter.interpret sample target) :=
    fun _ _ => spares_mapError _ fun _ => rfl
  unfold readSample
  dsimp only
  split
  · split
    · exact (interpreted _ _).bind applied
    · exact spares_error rfl
  · exact (interpreted _ _).bind applied

theorem noCastFault_conclude (discreet : s.orchestrator.Sparing Fault.isOfCast) {chain : CastChain}
    (applied : ∀ v, NoCastFault (chain.apply v)) (v : LazyValue) (l : FrozenLedger) :
    NoCastFault (s.conclude v chain l).1 := by
  have faults := (discreet.run Fault.foreign_isOfCast l).2
  unfold conclude
  rcases ran : s.orchestrator.run l with ⟨e | output, o⟩ <;> rw [ran] at faults
  · exact spares_error (faults e rfl)
  · exact noCastFault_readSample applied output.sample v.qubits

variable {setup : SessionSetup} {past : History}

theorem Reached.sparing {bad : Fault → Bool} (foreign : Fault.Foreign bad)
    (sparing : setup.modules.Sparing bad) (reached : Reached setup past s) :
    s.orchestrator.Sparing bad := by
  refine reached.induct (motive := fun _ s => s.orchestrator.Sparing bad) ?_ ?_
  · intro first started
    obtain ⟨plan, o, _, running, rfl⟩ := start_eq_ok started
    exact Orchestrator.start_sparing sparing running
  · intro past s c reached ih
    rcases (perform_effect reached.calm c).orchestrator with same | ⟨l, same⟩
    · exact same ▸ ih
    · exact same ▸ (ih.run foreign l).1

end Session
end LazyCast
