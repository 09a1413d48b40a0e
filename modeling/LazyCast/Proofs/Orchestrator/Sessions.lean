import LazyCast.Proofs.Orchestrator.Supervised
import LazyCast.Proofs.Passes.Paired
/-!
Sessions of an orchestrator. Every run stages and executes in a session of its own and leaves
nothing staged, so what a run executes is what it staged itself: each operation of its schedule, as
it is bound, exactly once.
-/
namespace LazyCast.Orchestrator
variable {o : Orchestrator} {e : Evaluator} {session : SessionId}

structure Idle (o : Orchestrator) : Prop where
  orderly : o.Orderly
  calm : o.Calm
  clean : ∀ kind session, stagedIn o.transcript kind session = none

theorem Idle.started {r : Registry} {modules : ModuleTable} {plan : SpawnPlan}
    {policy : SupervisionPolicy} (started : start r modules plan policy = .ok o) : o.Idle := by
  obtain ⟨compilers, _, rfl⟩ := start_eq started
  refine ⟨⟨fun kind w found => ?_, trivial, List.isChain_nil⟩,
    fun x last => absurd last (Option.not_mem_none x), fun _ _ => rfl⟩
  obtain ⟨⟨k, c⟩, _, made⟩ := List.mem_map.mp (find?_ofList _ found)
  cases made
  exact ⟨rfl, fun _ _ => rfl⟩

def Wrote (o p : Orchestrator) : Prop :=
  ∃ later, p.transcript = o.transcript ++ later ∧ ∀ kind, executedIn later kind = []

theorem Wrote.refl (o : Orchestrator) : o.Wrote o := ⟨[], (List.append_nil _).symm, fun _ => rfl⟩

theorem Wrote.trans {p q : Orchestrator} (first : o.Wrote p) (second : p.Wrote q) : o.Wrote q := by
  obtain ⟨xs, transcript, nothing⟩ := first
  obtain ⟨ys, transcript', nothing'⟩ := second
  refine ⟨xs ++ ys, by rw [transcript', transcript, List.append_assoc], fun kind => ?_⟩
  rw [executedIn_append, nothing, nothing', List.nil_append]

theorem wrote_call (o : Orchestrator) (kind : Kind) {r : Request}
    (idle : ∀ session limit, r ≠ .execute session limit) : o.Wrote (o.call kind r).2 := by
  cases found : o.workers.find? kind with
  | none =>
    simp only [call, found]
    exact .refl o
  | some w =>
    refine ⟨_, transcript_call found r, fun k => executedIn_idle k fun x mem => ?_⟩
    rw [List.mem_singleton.mp mem]
    unfold Exchange.executed?
    cases r with
    | execute session limit => exact absurd rfl (idle session limit)
    | _ => rfl

section Lowering

theorem Idle.call_lower (idle : o.Idle) (kind : Kind) (batch : List Instruction) :
    (o.call kind (.lower batch)).2.Idle := by
  cases found : o.workers.find? kind with
  | none =>
    simp only [call, found]
    exact idle
  | some w =>
    refine ⟨idle.orderly.call found (fun _ _ no => by cases no)
      fun y last failed => absurd failed (idle.calm y last), fun x last => ?_, fun k s => ?_⟩
    · rw [transcript_call found, List.getLast?_concat] at last
      cases Option.mem_some_iff.mp last
      rintro ⟨_, _, _, no, _⟩
      cases no
    · rw [transcript_call found, stagedIn_other, idle.clean]
      intro x mem no
      rw [List.mem_singleton.mp mem] at no
      cases no

theorem Idle.lower (idle : o.Idle) (kind : Kind) (batch : List Instruction) :
    (o.lower kind batch).2.Idle ∧ o.Wrote (o.lower kind batch).2 := by
  unfold Orchestrator.lower
  split
  · exact ⟨idle, .refl o⟩
  · refine keeps_andThen (P := fun p => p.Idle ∧ o.Wrote p)
      ⟨idle.call_lower kind batch, wrote_call o kind nofun⟩ fun response p kept => ?_
    cases response <;> exact kept

theorem Idle.lowerAll (idle : o.Idle) (batches : List (Kind × List Instruction)) :
    (o.lowerAll batches).2.Idle ∧ o.Wrote (o.lowerAll batches).2 := by
  induction batches generalizing o with
  | nil => exact ⟨idle, .refl o⟩
  | cons batch rest ih =>
    refine keeps_andThen (P := fun p => p.Idle ∧ o.Wrote p) (idle.lower batch.1 batch.2)
      fun p left kept => ?_
    have later := ih kept.1
    unfold Outcome.map
    exact ⟨later.1, kept.2.trans later.2⟩

end Lowering

namespace Drive
variable {d : Drive}

theorem logged_begin (idle : o.Idle) (session : SessionId) :
    (begin { o with nextSession := session + 1 } session).Logged o.classical session :=
  ⟨⟨idle.orderly.custodian, idle.orderly.backed, idle.orderly.chain⟩, rfl, rfl,
    fun kind other _ => idle.clean kind other, fun kind some => absurd (idle.clean kind session) some,
    nofun, fun x last failed => absurd failed (idle.calm x last)⟩

theorem settled_begin (idle : o.Idle) (session : SessionId) :
    (begin { o with nextSession := session + 1 } session).Settled :=
  ⟨idle.calm, fun kind _ => idle.clean kind session, nofun, nofun, nofun⟩

theorem Logged.close (logged : d.Logged e session) {kind : Kind} (mark : kind ∈ d.staged) :
    let d' := d.withOrchestrator (d.orchestrator.call kind (.close d.session)).2
    d'.Logged e session ∧ d'.orchestrator.Calm ∧ d'.heldBy kind = none ∧
      ∀ other, d.heldBy other = none → d'.heldBy other = none := by
  obtain ⟨w, found⟩ := Option.isSome_iff_exists.mp (logged.covered kind mark)
  refine ⟨logged.call found mark rfl nofun fun y last failed => ?_, calm_call found ?_, ?_,
    fun other none => ?_⟩
  · exact Or.inr ⟨d.session, (logged.failing y last failed).1, rfl⟩
  · rintro ⟨_, _, _, no, _⟩
    cases no
  · rw [heldBy_call found, if_pos rfl]
    exact if_pos rfl
  · rw [heldBy_call found, none]
    simp [Exchange.leaves]

theorem Logged.closeAll (logged : d.Logged e session) {kinds : List Kind}
    (among : ∀ kind ∈ kinds, kind ∈ d.staged) :
    let d' := d.withOrchestrator (d.orchestrator.closeAll d.session kinds)
    d'.Logged e session ∧ (kinds ≠ [] → d'.orchestrator.Calm) ∧
      ∀ kind, kind ∈ kinds ∨ d.heldBy kind = none → d'.heldBy kind = none := by
  induction kinds generalizing d with
  | nil =>
    exact ⟨logged, fun no => absurd rfl no, fun kind held => held.resolve_left List.not_mem_nil⟩
  | cons kind rest ih =>
    obtain ⟨logged', calm, closed, stay⟩ := logged.close (among kind List.mem_cons_self)
    obtain ⟨logged'', calm', closed'⟩ := ih logged' fun k mem => among k (List.mem_cons_of_mem _ mem)
    refine ⟨logged'', fun _ => ?_, fun k held => closed' k ?_⟩
    · cases rest with
      | nil => exact calm
      | cons _ _ => exact calm' (List.cons_ne_nil _ _)
    · rcases held with mem | none
      · rcases List.mem_cons.mp mem with rfl | mem
        · exact Or.inr closed
        · exact Or.inl mem
      · exact Or.inr (stay k none)

theorem Logged.ends (logged : d.Logged e session) :
    (d.orchestrator.closeAll d.session d.staged).Idle := by
  obtain ⟨logged', calm, closed⟩ := logged.closeAll fun _ mem => mem
  refine ⟨logged'.orderly, ?_, fun kind s => ?_⟩
  · by_cases none : d.staged = []
    · rw [none]
      exact fun x last failed => (logged.failing x last failed).2 none
    · exact calm none
  · by_cases own : s = d.session
    · rw [own]
      refine closed kind ?_
      by_cases held : d.heldBy kind = none
      · exact Or.inr held
      · exact Or.inl (logged.marked kind held)
    · exact logged'.apart kind s own

end Drive

theorem wrote_closeAll (o : Orchestrator) (session : SessionId) (kinds : List Kind) :
    o.Wrote (o.closeAll session kinds) := by
  unfold closeAll
  induction kinds generalizing o with
  | nil => exact .refl o
  | cons kind rest ih => exact (wrote_call o kind (r := .close session) nofun).trans (ih _)

theorem transcript_grows (o : Orchestrator) (kind : Kind) (r : Request) :
    o.transcript <+: (o.call kind r).2.transcript := by
  cases found : o.workers.find? kind with
  | none =>
    simp only [call, found]
    exact List.prefix_rfl
  | some w =>
    rw [transcript_call found]
    exact List.prefix_append _ _

theorem Idle.execute (idle : o.Idle) (host : Kind) (ops : List Scheduled) :
    (o.execute host ops).2.Idle ∧ ∃ later,
      (o.execute host ops).2.transcript = o.transcript ++ later ∧
      ∀ out, (o.execute host ops).1 = .ok out →
        ∃ bound, boundFrom o.classical .empty ops = .ok bound ∧
          ∀ kind, executedIn later kind = opsOf kind bound := by
  have led := (Drive.settled_begin idle o.nextSession).run
    (Drive.logged_begin idle o.nextSession) ops
  have grown : o.transcript <+: ((Drive.begin { o with nextSession := o.nextSession + 1 }
      o.nextSession).run ops).2.orchestrator.transcript :=
    drive_keeps (P := fun p => o.transcript <+: p.transcript)
      (fun p kind r _ before => before.trans (transcript_grows p kind r)) ops List.prefix_rfl
  unfold Orchestrator.execute
  dsimp only
  rcases driven : (Drive.begin { o with nextSession := o.nextSession + 1 } o.nextSession).run ops
    with ⟨answer, d⟩
  rw [driven] at led grown
  have same : d.session = o.nextSession := led.logged.ofSession
  rw [← same]
  obtain ⟨closing, closed, nothing⟩ := wrote_closeAll d.orchestrator d.session d.staged
  refine ⟨led.logged.ends, ?_⟩
  cases answer with
  | error f =>
    obtain ⟨later, driven⟩ := grown
    exact ⟨later ++ closing, by rw [closed, ← driven, List.append_assoc], nofun⟩
  | ok u =>
    obtain ⟨settled, clear, later, pays⟩ := led.reaches rfl
    refine ⟨later ++ closing, ?_, fun _ _ => ?_⟩
    · rw [closed, pays.transcript, List.append_assoc]
      rfl
    · obtain ⟨bound, all, shares⟩ := pays.owed [] _ (settled.cleared clear o.classical)
      have all : boundFrom o.classical .empty (ops ++ []) = .ok bound := all
      rw [List.append_nil] at all
      refine ⟨bound, all, fun kind => ?_⟩
      have share := shares kind
      have held : Drive.heldBy (.begin { o with nextSession := o.nextSession + 1 } o.nextSession)
          kind = none := idle.clean kind o.nextSession
      rw [held] at share
      rw [executedIn_append, nothing]
      exact share

theorem Idle.run (idle : o.Idle) (ledger : FrozenLedger) :
    (o.run ledger).2.Idle ∧ ∃ later,
      (o.run ledger).2.transcript = o.transcript ++ later ∧
      ∀ out, (o.run ledger).1 = .ok out →
        ∃ programs bound, o.Prepares ledger programs ∧
          boundFrom o.classical .empty (schedule programs) = .ok bound ∧
          ∀ kind, executedIn later kind = opsOf kind bound := by
  have nothing : o.transcript = o.transcript ++ [] := (List.append_nil _).symm
  unfold Orchestrator.run
  dsimp only
  cases missing : ledger.kinds.elems.find? fun k => !o.plan.contains k with
  | some k => exact ⟨idle, [], nothing, nofun⟩
  | none =>
    dsimp only
    cases planned : o.capabilities.plan ledger.dominantKind ledger.instructions with
    | error f => exact ⟨idle, [], nothing, nofun⟩
    | ok routing =>
      have kept := idle.lowerAll (routing.partition ledger.instructions).entries
      have same := continues_lowerAll o (routing.partition ledger.instructions).entries
      dsimp only
      rcases lowered : o.lowerAll (routing.partition ledger.instructions).entries with
        ⟨f | programs, p⟩
      · rw [lowered] at kept
        obtain ⟨later, wrote, _⟩ := kept.2
        exact ⟨kept.1, later, wrote, nofun⟩
      · rw [lowered] at kept same
        obtain ⟨asked, wrote, idly⟩ := kept.2
        have executed := kept.1.execute ledger.dominantKind (schedule programs)
        obtain ⟨later, grown, once⟩ := executed.2
        rw [Outcome.andThen_ok]
        refine ⟨executed.1, asked ++ later, by rw [grown, wrote, List.append_assoc],
          fun out ok => ?_⟩
        obtain ⟨bound, all, shares⟩ := once out ok
        refine ⟨programs, bound, ⟨missing, routing, p, planned, lowered⟩,
          same.1.classical ▸ all, fun kind => ?_⟩
        rw [executedIn_append, idly, List.nil_append, shares]

theorem Reachable.idle {r : Registry} {modules : ModuleTable} {plan : SpawnPlan}
    {policy : SupervisionPolicy} (reachable : Reachable r modules plan policy o) : o.Idle := by
  induction reachable with
  | start started => exact .started started
  | run _ ledger _ ih => exact (ih.run ledger).1

end LazyCast.Orchestrator
