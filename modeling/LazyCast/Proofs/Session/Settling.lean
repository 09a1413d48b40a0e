import LazyCast.Proofs.Session.Effects
/-!
What happens to member casts when a ledger is consumed: those recorded in it are pending no longer
and settled once, with what the run came to; all others are left alone.
-/
namespace LazyCast

theorem Table.contains_eq {κ α : Type} [DecidableEq κ] {t u : Table κ α} {k : κ}
    (same : t.find? k = u.find? k) : t.contains k = u.contains k := by
  rw [contains, contains, same]

namespace Session
variable {s : Session} {t : Nat}

theorem pending_settle (s : Session) (ticket : Nat) (r : Except Fault Value) (t : Nat) :
    (s.settle ticket r).pending.find? t = if t = ticket then none else s.pending.find? t := by
  split
  · rename_i same
    rw [same]
    exact Table.find?_erase_self _ _
  · rename_i other
    exact Table.find?_erase_of_ne _ other

theorem settled_settle (s : Session) (ticket : Nat) (r : Except Fault Value) (t : Nat) :
    (s.settle ticket r).settled.find? t =
      if t = ticket then some r else s.settled.find? t := by
  split
  · rename_i same
    rw [same]
    exact Table.find?_insert_self _ _ _
  · rename_i other
    exact Table.find?_insert_of_ne _ _ other

theorem pending_failMembers (s : Session) (e : Fault) (tickets : List Nat) (t : Nat) :
    (s.failMembers e tickets).pending.find? t =
      if t ∈ tickets then none else s.pending.find? t := by
  unfold failMembers
  induction tickets generalizing s with
  | nil => simp
  | cons ticket rest ih =>
    rw [List.foldl_cons, ih, pending_settle]
    by_cases here : t = ticket <;> by_cases later : t ∈ rest <;> simp [here, later]

theorem settled_failMembers (s : Session) (e : Fault) (tickets : List Nat) (t : Nat) :
    (s.failMembers e tickets).settled.find? t =
      if t ∈ tickets then some (.error e) else s.settled.find? t := by
  unfold failMembers
  induction tickets generalizing s with
  | nil => simp
  | cons ticket rest ih =>
    rw [List.foldl_cons, ih, settled_settle]
    by_cases here : t = ticket <;> by_cases later : t ∈ rest <;> simp [here, later]

theorem settleMembers_cons (s : Session) (output : RunOutput) (ticket : Nat) (rest : List Nat) :
    s.settleMembers output (ticket :: rest) =
      (match s.pending.find? ticket with
        | some m => s.settle ticket (s.memberResult output ticket m)
        | none => s).settleMembers output rest := rfl

/-- Settling needs nothing of a session but how samples are read. -/
theorem memberResult_congr {after : Session} (same : after.interpreter = s.interpreter)
    (output : RunOutput) (ticket : Nat) (m : PendingMember) :
    after.memberResult output ticket m = s.memberResult output ticket m := by
  simp only [memberResult, readSample, same]

theorem pending_settleMembers (s : Session) (output : RunOutput) (tickets : List Nat) (t : Nat) :
    (s.settleMembers output tickets).pending.find? t =
      if t ∈ tickets then none else s.pending.find? t := by
  induction tickets generalizing s with
  | nil => simp [settleMembers]
  | cons ticket rest ih =>
    rw [settleMembers_cons, ih]
    cases found : s.pending.find? ticket with
    | none =>
      by_cases here : t = ticket
      · subst here
        simp [found]
      · by_cases later : t ∈ rest <;> simp [here, later]
    | some m =>
      dsimp only
      rw [pending_settle]
      by_cases here : t = ticket <;> by_cases later : t ∈ rest <;> simp [here, later]

theorem settled_settleMembers (s : Session) (output : RunOutput) (tickets : List Nat) (t : Nat) :
    (s.settleMembers output tickets).settled.find? t =
      match if t ∈ tickets then s.pending.find? t else none with
      | some m => some (s.memberResult output t m)
      | none => s.settled.find? t := by
  induction tickets generalizing s with
  | nil => simp [settleMembers]
  | cons ticket rest ih =>
    rw [settleMembers_cons, ih]
    cases found : s.pending.find? ticket with
    | none =>
      by_cases here : t = ticket
      · subst here
        simp [found]
      · by_cases later : t ∈ rest <;> simp [here, later]
    | some m =>
      dsimp only
      rw [pending_settle, settled_settle]
      by_cases here : t = ticket
      · subst here
        simp [found]
      · by_cases later : t ∈ rest
        · simp only [here, later, List.mem_cons, if_true, if_false, or_true]
          cases s.pending.find? t with
          | none => rfl
          | some later => exact congrArg some (memberResult_congr rfl output t later)
        · simp [here, later]

theorem pending_conclude (s : Session) (v : LazyValue) (chain : CastChain) (l : FrozenLedger)
    (t : Nat) : (s.conclude v chain l).2.pending.find? t =
      if t ∈ memberTickets l then none else s.pending.find? t := by
  unfold conclude
  rcases s.orchestrator.run l with ⟨e | output, o⟩
  · exact pending_failMembers _ e _ t
  · exact pending_settleMembers _ output _ t

theorem settled_conclude_of_notMem (s : Session) (v : LazyValue) (chain : CastChain)
    {l : FrozenLedger} (outside : t ∉ memberTickets l) :
    (s.conclude v chain l).2.settled.find? t = s.settled.find? t := by
  unfold conclude
  rcases s.orchestrator.run l with ⟨e | output, o⟩
  · exact (settled_failMembers _ e _ t).trans (if_neg outside)
  · have settled := settled_settleMembers ({ s with orchestrator := o }) output (memberTickets l) t
    rw [if_neg outside] at settled
    exact settled

theorem settled_conclude_of_mem (s : Session) (v : LazyValue) (chain : CastChain)
    {l : FrozenLedger} (inside : t ∈ memberTickets l) (waits : s.pending.contains t = true) :
    (s.conclude v chain l).2.settled.contains t = true := by
  obtain ⟨m, found⟩ := Option.isSome_iff_exists.mp waits
  unfold conclude Table.contains
  rcases s.orchestrator.run l with ⟨e | output, o⟩
  · dsimp only
    rw [settled_failMembers, if_pos inside]
    rfl
  · have settled := settled_settleMembers ({ s with orchestrator := o }) output (memberTickets l) t
    rw [if_pos inside, found] at settled
    dsimp only
    rw [settled]
    rfl

end Session
end LazyCast
