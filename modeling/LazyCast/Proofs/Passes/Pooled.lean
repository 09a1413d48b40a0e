import LazyCast.Proofs.Circuit.Locality
import LazyCast.Proofs.Passes.Hosted
/-!
Ledgers run as one. Two ledgers on different qubits and registers, in whatever order their
instructions come between each other, bind to what each of them binds to alone; and the operations of
the one change no probability on the qubits of the other.
-/
namespace LazyCast

namespace Kind

theorem dominant_best (kinds : List Kind) (best : Kind) :
    kinds.foldl (fun best next => if Key.before best next then next else best) best ∈ best :: kinds ∧
      ∀ k ∈ best :: kinds, k.level ≤
        (kinds.foldl (fun best next => if Key.before best next then next else best) best).level := by
  induction kinds generalizing best with
  | nil =>
    refine ⟨List.mem_cons_self, fun k mem => ?_⟩
    rw [List.mem_singleton.mp mem]
    exact Nat.le_refl _
  | cons next rest ih =>
    rw [List.foldl_cons]
    by_cases before : Key.before best next = true
    · rw [if_pos before]
      obtain ⟨among, upper⟩ := ih next
      refine ⟨List.mem_cons_of_mem best among, fun k mem => ?_⟩
      rcases List.mem_cons.mp mem with rfl | mem
      · have le : k.level ≤ next.level := by
          simp only [Key.before, Bool.or_eq_true, Bool.and_eq_true, decide_eq_true_eq] at before
          omega
        exact Nat.le_trans le (upper next List.mem_cons_self)
      · exact upper k mem
    · rw [if_neg before]
      obtain ⟨among, upper⟩ := ih best
      refine ⟨?_, fun k mem => ?_⟩
      · rcases List.mem_cons.mp among with same | mem
        · rw [same]
          exact List.mem_cons_self
        · exact List.mem_cons_of_mem best (List.mem_cons_of_mem next mem)
      · rcases List.mem_cons.mp mem with rfl | mem
        · exact upper k List.mem_cons_self
        · rcases List.mem_cons.mp mem with rfl | mem
          · have le : k.level ≤ best.level := by
              simp only [Key.before, Bool.or_eq_true, Bool.and_eq_true, decide_eq_true_eq] at before
              omega
            exact Nat.le_trans le (upper best List.mem_cons_self)
          · exact upper k (List.mem_cons_of_mem best mem)

theorem dominant_mem (kinds : List Kind) : dominant kinds = .classical ∨ dominant kinds ∈ kinds := by
  cases kinds with
  | nil => exact Or.inl rfl
  | cons k ks => exact Or.inr (dominant_best ks k).1

theorem level_le_dominant {kinds : List Kind} : ∀ k ∈ kinds, k.level ≤ (dominant kinds).level := by
  cases kinds with
  | nil => exact fun k none => by cases none
  | cons k ks => exact (dominant_best ks k).2

end Kind

namespace Orchestrator
variable {ds : List Descriptor} {r r' : Registry} {o o' : Orchestrator} {host : Kind}
  {sim : Simulator} {dominant : Kind} {is js : List Instruction} {bound : List Scheduled}

theorem boundFrom_append {e : Evaluator} {eval : EvalState} {xs ys bound : List Scheduled}
    (all : boundFrom e eval (xs ++ ys) = .ok bound) : ∃ left, boundFrom e eval xs = .ok left := by
  induction xs generalizing eval bound with
  | nil => exact ⟨[], rfl⟩
  | cons op rest ih =>
    cases needed : op.1.isClassical with
    | true =>
      rw [List.cons_append, boundFrom_classical needed] at all
      obtain ⟨next, stepped, later⟩ := Except.bind_eq_ok.mp all
      obtain ⟨left, first⟩ := ih later
      refine ⟨left, ?_⟩
      rw [boundFrom_classical needed]
      exact Except.bind_eq_ok.mpr ⟨next, stepped, first⟩
    | false =>
      rw [List.cons_append] at all
      obtain ⟨b, _, binds, later, _⟩ := boundFrom_needed_ok needed all
      obtain ⟨left, first⟩ := ih later
      refine ⟨tagged b ++ left, ?_⟩
      rw [boundFrom_needed needed, binds, first]
      rfl

theorem mem_bound_of_gate {e : Evaluator} {eval : EvalState} {ops bound : List Scheduled} {kind : Kind}
    (needed : kind.isClassical = false) {seq : Nat} {code : String} {qubits : List Qubit}
    (mem : (kind, Lowering.gate seq code qubits) ∈ ops) (all : boundFrom e eval ops = .ok bound) :
    (kind, Lowering.gate seq code qubits) ∈ bound := by
  induction ops generalizing eval bound with
  | nil => cases mem
  | cons op rest ih =>
    cases other : op.1.isClassical with
    | true =>
      rw [boundFrom_classical other] at all
      obtain ⟨next, _, later⟩ := Except.bind_eq_ok.mp all
      rcases List.mem_cons.mp mem with rfl | mem
      · cases needed.symm.trans other
      · exact ih mem later
    | false =>
      obtain ⟨b, left, binds, later, rfl⟩ := boundFrom_needed_ok other all
      rcases List.mem_cons.mp mem with rfl | mem
      · obtain ⟨x, one, rfl⟩ := Program.bind_single.mp binds
        rw [Program.bindOp_gate] at one
        cases one
        exact List.mem_append_left _ List.mem_cons_self
      · exact List.mem_append_right _ (ih mem later)

namespace BindsTo

theorem front (binds : BindsTo r o dominant (is ++ js) bound) :
    ∃ left, BindsTo r o dominant is left := by
  obtain ⟨owns, yields, all⟩ := binds
  have yields := List.forall₂_take is.length yields
  rw [List.take_left] at yields
  rw [← List.take_append_drop is.length owns, List.flatMap_append] at all
  obtain ⟨left, all⟩ := boundFrom_append all
  exact ⟨left, _, yields, all⟩

theorem shuffled {ks : List Instruction} {bound' : List Scheduled}
    (binds : BindsTo r o dominant is bound) (binds' : BindsTo r o dominant js bound')
    (apart : ∀ name ∈ is.flatMap Instruction.registers, name ∉ js.flatMap Instruction.registers)
    (shuffled : Shuffles Instruction.Alike is js ks) : ∃ whole, BindsTo r o dominant ks whole ∧
      Shuffles Scheduled.Alike bound bound' whole := by
  obtain ⟨owns, yields, all⟩ := binds
  obtain ⟨owns', yields', all'⟩ := binds'
  have named : ∀ {is owns}, List.Forall₂ (Yields r o dominant) is owns →
      ∀ name ∈ readsOf (owns.flatMap tagged), name ∈ is.flatMap Instruction.registers := by
    intro is owns yields name read
    obtain ⟨op, mem, read⟩ := List.mem_flatMap.mp read
    obtain ⟨p, among, mem⟩ := List.mem_flatMap.mp mem
    obtain ⟨own, at_op, rfl⟩ := List.mem_map.mp mem
    obtain ⟨i, ofLedger, yields⟩ := forall₂_right yields p among
    exact List.mem_flatMap.mpr ⟨i, ofLedger, yields.reads own at_op name read⟩
  obtain ⟨joined, yields'', together⟩ :=
    shuffled.lead (fun _ alike yields => yields.alike alike) yields yields'
  obtain ⟨whole, all'', beside⟩ := boundFrom_shuffled (together.flatMap fun same => same)
    (named yields) (named yields') apart (.refl _ _) (.refl _ _) all all'
  exact ⟨whole, ⟨joined, yields'', all''⟩, beside⟩

theorem switch (binds : BindsTo r o dominant is bound) (hosted : Hosted r o host sim) {other : Kind}
    (hosts : dominant = .classical ∨ dominant = host) (hosts' : other = .classical ∨ other = host)
    (kinds : ∀ i ∈ is, i.kind = .classical ∨ i.kind = host)
    (fences : 0 < host.level → other = host → dominant = host ∨
      ∀ i ∈ is, i.opcode = "barrier" → i.qubits.Nodup) :
    ∃ bound', BindsTo r o other is bound' ∧
      unfenced (bound'.map Prod.snd) = unfenced (bound.map Prod.snd) := by
  obtain ⟨owns, yields, all⟩ := binds
  have each : ∀ i ∈ is, ∀ p, Yields r o dominant i p →
      ∃ q, Yields r o other i q ∧ List.Forall₂ Scheduled.Refenced (tagged p) (tagged q) := by
    intro i mem p yields
    exact hosted.yields_switch hosts hosts' (kinds i mem)
      (fun higher ofHost => (fences higher ofHost).imp_right fun distinct => distinct i mem) yields
  obtain ⟨owns', yields', refenced⟩ : ∃ owns', List.Forall₂ (Yields r o other) is owns' ∧
      List.Forall₂ Scheduled.Refenced (owns.flatMap tagged) (owns'.flatMap tagged) := by
    clear all kinds fences
    induction yields with
    | nil => exact ⟨[], .nil, .nil⟩
    | @cons i p is owns first _ ih =>
      obtain ⟨q, yields, same⟩ := each i List.mem_cons_self p first
      obtain ⟨qs, others, rest⟩ := ih fun i mem => each i (List.mem_cons_of_mem _ mem)
      exact ⟨q :: qs, .cons yields others, List.rel_append same rest⟩
  obtain ⟨bound', all', same⟩ := boundFrom_refenced refenced all
  exact ⟨bound', ⟨owns', yields', all'⟩, same⟩

theorem measurement (binds : BindsTo r o dominant is bound) (hosted : Hosted r o host sim)
    (evaluator : Descriptor) (evaluates : o.classical = Evaluator.ofDescriptor evaluator)
    {i : Instruction} (mem : i ∈ is) (measures : i.opcode = "measure") {qubits : List Qubit}
    (operands : i.operands = qubits.map Operand.qubit) :
    r.Serves host sim ∧ (host, Lowering.gate i.seq "measure" qubits) ∈ bound := by
  obtain ⟨owns, yields, all⟩ := binds
  obtain ⟨p, among, yields⟩ := forall₂_left yields i mem
  cases yields with
  | evaluated _ lowered =>
    rw [evaluates] at lowered
    have batch : (Evaluator.ofDescriptor evaluator).lower [i] = .ok ⟨_, [_]⟩ :=
      (Evaluator.ofDescriptor evaluator).piecewise.single_iff.mpr
        ⟨_, Except.map_eq_ok.mpr ⟨_, lowered, rfl⟩, rfl⟩
    exact absurd measures (Evaluator.measures_nothing evaluator batch i List.mem_cons_self)
  | @simulated kind s ops needed _ _ serves lowered =>
    cases Lowering.lowerOne_measurement measures operands (Simulator.lowerOne_eq_ok lowered)
    obtain ⟨ofHost, ofSim⟩ := hosted.served kind s needed serves
    rw [ofHost, ofSim] at serves
    refine ⟨serves, mem_bound_of_gate hosted.needed ?_ all⟩
    rw [← ofHost]
    exact List.mem_flatMap.mpr ⟨_, among, List.mem_cons_self⟩

end BindsTo

theorem BindsTo.touched (binds : BindsTo r o dominant is bound) :
    (Circuit.touched (bound.map Prod.snd)).size ≤ (is.flatMap Instruction.qubits).toFinset.card := by
  have nodup := Circuit.nodup_touched (bound.map Prod.snd)
  have inside : (Circuit.touched (bound.map Prod.snd)).elems.toFinset ⊆
      (is.flatMap Instruction.qubits).toFinset := by
    intro q mem
    rw [List.mem_toFinset] at mem ⊢
    obtain ⟨op, among, at_q⟩ := (Circuit.mem_touched _ q).mp mem
    obtain ⟨x, bound, rfl⟩ := List.mem_map.mp among
    obtain ⟨i, ofLedger, at_i⟩ := (binds.remains x bound).2 q at_q
    exact List.mem_flatMap.mpr ⟨i, ofLedger, at_i⟩
  have card := Finset.card_le_card inside
  rwa [List.toFinset_card_of_nodup nodup] at card

theorem Paired.run_of_measurement (paired : Paired ds r r' o o') (stocked : o'.Ready (stock r'))
    (hosted : Hosted r o host sim) {ledger : FrozenLedger} (numbered : Numbered ledger.instructions)
    (present : ∀ kind ∈ ledger.kinds.elems, o.plan.contains kind = true)
    (binds : BindsTo r o ledger.dominantKind ledger.instructions bound) (serves : r.Serves host sim)
    {seq : Nat} {targets : List Qubit} (mem : (host, Lowering.gate seq "measure" targets) ∈ bound)
    (some : targets ≠ []) (few : (Circuit.touched (bound.map Prod.snd)).size ≤ sim.maxQubits) :
    ∃ out p s c, (o.run ledger).1 = .ok out ∧ (o.run ledger).2.ran = o.ran ++ [p] ∧
      out.sample = .measured s ∧ Samples r p c s ∧ Reduces (bound.map Prod.snd) p.ops ∧
        ∀ q ∈ targets, q ∈ Circuit.readout p.ops := by
  have listed : Lowering.gate seq "measure" targets ∈ bound.map Prod.snd := List.mem_map_of_mem mem
  have present : (ledger.kinds.elems.find? fun k => !o.plan.contains k) = none := by
    rw [List.find?_eq_none]
    intro kind mem
    simp [present kind mem]
  obtain ⟨out, p, s, c, ok, ran, sample, samples, reduces⟩ :=
    paired.run_of_bindsTo stocked numbered present binds hosted.needed
      (fun _ _ yields => hosted.kind_of_yields yields) (measuredBy_gate some listed) serves few
  refine ⟨out, p, s, c, ok, ran, sample, samples, reduces, fun q asked => ?_⟩
  apply Circuit.mem_readout
  rw [reduces.measuredBy]
  exact Circuit.mem_measuredBy listed q asked

theorem gatesOn_bound (bound : List Scheduled) :
    gatesOn (bound.map Prod.snd) = bound.filterMap fun x => x.2.gate? :=
  List.filterMap_map

theorem exactTrigonometry_unitary (value : Float → ℝ) : (exactTrigonometry value).Unitary where
  diagonal := exactTrigonometry_unit value
  angle x := Real.cos_sq_add_sin_sq (value x / 2)

section Dominant
variable {ledger : FrozenLedger}

theorem Hosted.kinds_of_run (hosted : Hosted r o host sim) {out : RunOutput}
    (ok : (o.run ledger).1 = .ok out) : ∀ kind ∈ ledger.kinds.elems,
      o.plan.contains kind = true ∧ (kind = .classical ∨ kind = host) := by
  obtain ⟨_, _, _, _, prepares⟩ := prepares_of_run ok
  intro kind mem
  have planned : o.plan.contains kind = true := by
    simpa using List.find?_eq_none.mp prepares.planned kind mem
  exact ⟨planned, hosted.plan kind (of_decide_eq_true planned)⟩

theorem dominant_cases (kinds : ∀ kind ∈ ledger.kinds.elems, kind = .classical ∨ kind = host) :
    ledger.dominantKind = .classical ∨ ledger.dominantKind = host := by
  rcases Kind.dominant_mem ledger.kinds.elems with classical | mem
  · exact Or.inl classical
  · exact kinds _ mem

theorem dominant_host (kinds : ∀ kind ∈ ledger.kinds.elems, kind = .classical ∨ kind = host)
    (higher : 0 < host.level) : ledger.dominantKind = host ↔ host ∈ ledger.kinds.elems := by
  constructor
  · intro same
    rcases Kind.dominant_mem ledger.kinds.elems with classical | mem
    · rw [← same, show ledger.dominantKind = .classical from classical] at higher
      cases higher
    · exact same ▸ mem
  · intro mem
    rcases dominant_cases kinds with classical | same
    · have le : host.level ≤ ledger.dominantKind.level := Kind.level_le_dominant host mem
      rw [classical] at le
      exact absurd higher (Nat.not_lt.mpr le)
    · exact same

end Dominant

def Listed (ledger : FrozenLedger) : Prop :=
  ∀ i ∈ ledger.instructions, i.kind ∈ ledger.kinds.elems

/-- No instruction of a backend's kind is there, or every fence names its qubits once. -/
def Fenced (kind : Kind) (ledger : FrozenLedger) : Prop :=
  kind ∈ ledger.kinds.elems ∨
    ∀ i ∈ ledger.instructions, i.opcode = "barrier" → i.qubits.Nodup

/-- Ledgers that share nothing, and a ledger that holds the instructions of the one between those of
    the other. The last instructions of the other may be left out. -/
structure Pools (host : Kind) (room : Nat) (a b m : FrozenLedger) (bs : List Instruction) :
    Prop where
  split : ∃ closing, b.instructions = bs ++ closing
  shuffled : Shuffles Instruction.Alike a.instructions bs m.instructions
  numbered : Numbered a.instructions
  numbered' : Numbered b.instructions
  numbered'' : Numbered m.instructions
  listed : Listed a
  listed' : Listed b
  kinds : ∀ kind ∈ m.kinds.elems, kind ∈ a.kinds.elems ∨ kind ∈ b.kinds.elems
  qubits : ∀ q ∈ a.instructions.flatMap Instruction.qubits, q ∉ bs.flatMap Instruction.qubits
  registers : ∀ name ∈ a.instructions.flatMap Instruction.registers,
    name ∉ bs.flatMap Instruction.registers
  few : ((a.instructions ++ bs).flatMap Instruction.qubits).toFinset.card ≤ room
  fenced : host ∈ b.kinds.elems → Fenced host a
  fenced' : host ∈ a.kinds.elems → Fenced host b

section Pooled
variable {a b m : FrozenLedger} {bs : List Instruction} {room : Nat}

theorem Pools.binds (pools : Pools host room a b m bs) (hosted : Hosted r o host sim)
    (paired : Paired ds r r' o o') (stocked : o'.Ready (stock r')) {outA outB : RunOutput}
    (ranA : (o.run a).1 = .ok outA) (ranB : (o.run b).1 = .ok outB) :
    ∃ bound own other whole, BindsTo r o a.dominantKind a.instructions bound ∧
      BindsTo r o m.dominantKind a.instructions own ∧
      unfenced (own.map Prod.snd) = unfenced (bound.map Prod.snd) ∧
      BindsTo r o m.dominantKind bs other ∧ BindsTo r o m.dominantKind m.instructions whole ∧
      Shuffles Scheduled.Alike own other whole := by
  have kinds := fun kind mem => (hosted.kinds_of_run ranA kind mem).2
  have kinds' := fun kind mem => (hosted.kinds_of_run ranB kind mem).2
  have kinds'' : ∀ kind ∈ m.kinds.elems, kind = .classical ∨ kind = host :=
    fun kind mem => (pools.kinds kind mem).elim (kinds kind) (kinds' kind)
  have hosts := dominant_cases kinds''
  -- Where the merged ledger has the simulator for its host, one of the two has it as well.
  have ofHost : 0 < host.level → m.dominantKind = host → host ∈ a.kinds.elems ∨ host ∈ b.kinds.elems :=
    fun higher same => pools.kinds host ((dominant_host kinds'' higher).mp same)
  obtain ⟨bound, binds⟩ := paired.bindsTo_of_run stocked pools.numbered ranA
  obtain ⟨bound', binds'⟩ := paired.bindsTo_of_run stocked pools.numbered' ranB
  obtain ⟨closing, split⟩ := pools.split
  have inside : ∀ i ∈ bs, i ∈ b.instructions := fun i mem => by
    rw [split]
    exact List.mem_append_left closing mem
  rw [split] at binds'
  obtain ⟨_, binds'⟩ := binds'.front
  obtain ⟨own, bindsA, same⟩ := binds.switch hosted (dominant_cases kinds) hosts
    (fun i mem => kinds _ (pools.listed i mem)) fun higher ofM =>
      ((ofHost higher ofM).elim Or.inl pools.fenced).imp_left (dominant_host kinds higher).mpr
  obtain ⟨other, bindsB, _⟩ := binds'.switch hosted (dominant_cases kinds') hosts
    (fun i mem => kinds' _ (pools.listed' i (inside i mem))) fun higher ofM =>
      ((ofHost higher ofM).elim pools.fenced' Or.inl).imp (dominant_host kinds' higher).mpr
        fun distinct i mem => distinct i (inside i mem)
  obtain ⟨whole, bindsM, together⟩ := bindsA.shuffled bindsB pools.registers pools.shuffled
  exact ⟨bound, own, other, whole, binds, bindsA, same, bindsB, bindsM, together⟩

theorem Pools.touched (pools : Pools host room a b m bs) {host' : Kind} :
    (BindsTo r o host' a.instructions bound →
      (Circuit.touched (bound.map Prod.snd)).size ≤ room) ∧
    (BindsTo r o host' m.instructions bound →
      (Circuit.touched (bound.map Prod.snd)).size ≤ room) := by
  have inside : ∀ is : List Instruction,
      (∀ i ∈ is, ∀ q ∈ i.qubits, ∃ j ∈ a.instructions ++ bs, q ∈ j.qubits) →
        (is.flatMap Instruction.qubits).toFinset.card ≤ room := by
    intro is inside
    refine Nat.le_trans (Finset.card_le_card fun q mem => ?_) pools.few
    obtain ⟨i, among, at_q⟩ := List.mem_flatMap.mp (List.mem_toFinset.mp mem)
    exact List.mem_toFinset.mpr (List.mem_flatMap.mpr (inside i among q at_q))
  constructor
  · intro binds
    exact Nat.le_trans binds.touched
      (inside _ fun i mem q at_q => ⟨i, List.mem_append_left bs mem, at_q⟩)
  · intro binds
    refine Nat.le_trans binds.touched (inside _ fun i mem q at_q => ?_)
    rcases pools.shuffled.mem i mem with ⟨j, among, alike⟩ | ⟨j, among, alike⟩
    · exact ⟨j, List.mem_append_left bs among, alike.qubits ▸ at_q⟩
    · exact ⟨j, List.mem_append_right a.instructions among, alike.qubits ▸ at_q⟩

theorem Pools.clear (pools : Pools host room a b m bs) (binds : BindsTo r o dominant bs bound) {q : Qubit}
    (inside : ∃ i ∈ a.instructions, q ∈ i.qubits) : ∀ y ∈ bound.map Prod.snd, q ∉ y.qubits := by
  intro y among at_y
  obtain ⟨i, mem, at_q⟩ := inside
  obtain ⟨x, left, rfl⟩ := List.mem_map.mp among
  obtain ⟨j, mem', at_q'⟩ := (binds.remains x left).2 q at_y
  exact pools.qubits q (List.mem_flatMap.mpr ⟨i, mem, at_q⟩) (List.mem_flatMap.mpr ⟨j, mem', at_q'⟩)

theorem Pools.probabilities (pools : Pools host room a b m bs) {own other whole : List Scheduled}
    (bindsA : BindsTo r o dominant a.instructions own) (bindsB : BindsTo r o dominant bs other)
    (together : Shuffles Scheduled.Alike own other whole)
    (same : unfenced (own.map Prod.snd) = unfenced (bound.map Prod.snd)) {p p' : Program}
    {c c' : Circuit} (reduces : Reduces (bound.map Prod.snd) p.ops)
    (reduces' : Reduces (whole.map Prod.snd) p'.ops) (circuit : Circuits r p c)
    (circuit' : Circuits r p' c') {targets : List Qubit}
    (inside : ∀ q ∈ targets, ∃ i ∈ a.instructions, q ∈ i.qubits)
    (read : ∀ q ∈ targets, q ∈ Circuit.readout p.ops)
    (read' : ∀ q ∈ targets, q ∈ Circuit.readout p'.ops) (value : Float → ℝ) (outcome : String) :
    c.probabilityOn (exactTrigonometry value) targets outcome =
      c'.probabilityOn (exactTrigonometry value) targets outcome := by
  obtain ⟨_, _, made⟩ := circuit
  obtain ⟨_, _, made'⟩ := circuit'
  have unit := exactTrigonometry_unit value
  have gates : Shuffles Eq (gatesOn (own.map Prod.snd)) (gatesOn (other.map Prod.snd))
      (gatesOn (whole.map Prod.snd)) := by
    rw [gatesOn_bound, gatesOn_bound, gatesOn_bound]
    exact together.filterMap fun alike => alike.op.gate?.symm
  have alone : waveOf (exactTrigonometry value) p.ops =
      waveOf (exactTrigonometry value) (own.map Prod.snd) := by
    rw [reduces.waveOf unit, waveOf, waveOf, ← gatesOn_unfenced, ← same, gatesOn_unfenced]
  have apart : ∀ x ∈ own.map Prod.snd, ∀ y ∈ other.map Prod.snd, ∀ q ∈ x.qubits, q ∉ y.qubits := by
    intro x among y among' q at_q
    obtain ⟨x, left, rfl⟩ := List.mem_map.mp among
    exact pools.clear bindsB ((bindsA.remains x left).2 q at_q) y among'
  exact Circuit.probabilityOn_shuffled (exactTrigonometry_unitary value) made made' alone
    (reduces'.waveOf unit) gates apart (fun q asked => pools.clear bindsB (inside q asked)) read read'
    outcome

variable {backend : Descriptor} {plan : SpawnPlan} {policy : SupervisionPolicy} {i : Instruction}
  {targets : List Qubit}

/-- What a ledger measures has the same probabilities when the ledger runs by itself and when it runs
    as one with a ledger that shares nothing with it. -/
theorem Pools.alike (pools : Pools backend.kind sim.maxQubits a b m bs)
    (one : OneBackend ds backend sim) (made : Registry.Made ds r)
    (reachable : Reachable r .builtin plan policy o) {outA outB : RunOutput}
    (ranA : (o.run a).1 = .ok outA) (ranB : (o.run b).1 = .ok outB)
    (mem : i ∈ a.instructions) (measures : i.opcode = "measure")
    (operands : i.operands = targets.map Operand.qubit) (some : targets ≠ []) :
    ∃ p s c, (o.run a).2.ran = o.ran ++ [p] ∧ outA.sample = .measured s ∧ Samples r p c s ∧
      ∃ out p' s' c', (o.run m).1 = .ok out ∧ (o.run m).2.ran = o.ran ++ [p'] ∧
        out.sample = .measured s' ∧ Samples r p' c' s' ∧
          ∀ value outcome, c.probabilityOn (exactTrigonometry value) targets outcome =
            c'.probabilityOn (exactTrigonometry value) targets outcome := by
  obtain ⟨r', o', paired, stocked⟩ := exists_twin made one.simulated reachable
  have hosted := hosted_of_reachable one made reachable
  have evaluates := reachable.evaluates
  obtain ⟨bound, own, other, whole, binds, bindsA, same, bindsB, bindsM, together⟩ :=
    pools.binds hosted paired stocked ranA ranB
  -- The measurement is in what both ledgers bind to, so both run.
  obtain ⟨serves, measured⟩ := binds.measurement hosted r.classical evaluates mem measures operands
  obtain ⟨_, measured'⟩ := bindsA.measurement hosted r.classical evaluates mem measures operands
  obtain ⟨⟨kind, op⟩, measuredM, ofKind, placed⟩ := together.left_mem _ measured'
  dsimp only at ofKind placed
  subst ofKind
  rw [show op = Lowering.gate op.seq "measure" targets from placed] at measuredM
  have kinds := hosted.kinds_of_run ranA
  have kinds' := hosted.kinds_of_run ranB
  obtain ⟨out, p, s, c, ok, ran, drawn, samples, reduces, read⟩ :=
    paired.run_of_measurement stocked hosted pools.numbered (fun kind mem => (kinds kind mem).1)
      binds serves measured some (pools.touched.1 binds)
  obtain ⟨out', p', s', c', ok', ran', drawn', samples', reduces', read'⟩ :=
    paired.run_of_measurement stocked hosted pools.numbered''
      (fun kind mem => (pools.kinds kind mem).elim (fun mem => (kinds kind mem).1)
        fun mem => (kinds' kind mem).1)
      bindsM serves measuredM some (pools.touched.2 bindsM)
  obtain rfl : out = outA := Except.ok.inj (ok.symm.trans ranA)
  refine ⟨p, s, c, ran, drawn, samples, out', p', s', c', ok', ran', drawn', samples', ?_⟩
  refine fun value outcome => pools.probabilities bindsA bindsB together same reduces reduces'
    samples.circuits samples'.circuits (fun q asked => ⟨i, mem, ?_⟩) read read' value outcome
  rw [Instruction.qubits, operands, Lowering.qubitsOf_map]
  exact asked

end Pooled
end Orchestrator
end LazyCast
