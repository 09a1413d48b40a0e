import LazyCast.Proofs.Ledger.Sight
/-!
The life of a handle. In every run its state moves forward, together with all handles of its
ledger, and once it is resolved it stays so, whatever later takes its slot. This rests on a handle
being handed out once, so slots must not be freed so often that their generations start over.
-/
namespace LazyCast.Arena
variable {a b : Arena} {h k : Handle} {c : Command}

inductive Goes (a b : Arena) : Command → Prop where
  | onward {c : Command} (onward : a.groups.Onward b.groups) : Goes a b c
  | created {owner : ValueId}
      (kept : ∀ h, h ≠ (a.create owner).1 → b.groups.groupOf? h = a.groups.groupOf? h) :
      Goes a b (.create owner)
  | triggered {h : Handle} {g : Group} (found : a.groups.open? h = some g)
      (groups : b.groups = a.groups.put g.drained) : Goes a b (.trigger h)
  | released {h : Handle} {g : Group} (found : a.groups.groupOf? h = some g)
      (frozen : g.state = .triggered) (groups : b.groups = a.groups.dissolve g) :
      Goes a b (.release h)

theorem Tidy.groupOf?_create (t : a.Tidy) (owner : ValueId) (other : h ≠ (a.create owner).1) :
    (a.create owner).2.groups.groupOf? h = a.groups.groupOf? h := by
  cases found : a.groups.groupOf? h with
  | some g =>
    obtain ⟨mem, inside⟩ := Groups.groupOf?_spec found
    exact (create_matches t owner).tidy.apart.groupOf?_of_mem
      ((t.mem_create owner).mpr (Or.inr mem)) inside
  | none =>
    rw [Groups.groupOf?_eq_none]
    intro k mem inside
    rcases (t.mem_create owner).mp mem with rfl | mem
    · exact other (List.mem_singleton.mp inside)
    · exact Groups.groupOf?_eq_none.mp found k mem inside

theorem Tidy.perform_goes (t : a.Tidy) (c : Command) : Goes a (a.perform c).2 c := by
  cases plain : c.isTurn with
  | false =>
    obtain ⟨name, m, _⟩ := perform_matches t c
    exact .onward (m.groups ▸ Groups.perform_onward t.apart name plain)
  | true =>
    cases c with
    | create owner => exact .created fun h => t.groupOf?_create owner
    | trigger h =>
      have m := trigger_matches t h
      cases found : a.groups.open? h with
      | some g =>
        rw [Groups.trigger_open found] at m
        exact .triggered found m.groups
      | none =>
        simp only [Groups.trigger, found] at m
        exact .onward (m.groups ▸ .refl a.groups)
    | release h =>
      have m := release_matches t h
      cases found : a.groups.groupOf? h with
      | none =>
        simp only [Groups.release, found] at m
        exact .onward (m.groups ▸ .refl a.groups)
      | some g =>
        simp only [Groups.release, found] at m
        rcases state_of_mem (Groups.groupOf?_spec found).1 with isOpen | frozen
        · rw [if_pos isOpen] at m
          exact .onward (m.groups ▸ .refl a.groups)
        · rw [if_neg (by simp [frozen, LedgerState.isOpen])] at m
          exact .released found frozen m.groups
    | _ => cases plain

inductive Turns (a : Arena) (h : Handle) : Command → LedgerState → Prop where
  | stays (c : Command) : Turns a h c (a.state h)
  | pooled (c : Command) (alone : a.state h = .accumulating) : Turns a h c .merged
  | givenUp (c : Command) (isOpen : (a.state h).isOpen = true) : Turns a h c .resolved
  | triggered (k : Handle) (shared : a.sameLedger k h = true)
      (isOpen : (a.state h).isOpen = true) : Turns a h (.trigger k) .triggered
  | released (k : Handle) (shared : a.sameLedger k h = true)
      (frozen : a.state h = .triggered) : Turns a h (.release k) .resolved

theorem Turns.rank_le {s : LedgerState} (turns : Turns a h c s) : (a.state h).rank ≤ s.rank := by
  cases turns with
  | stays => exact Nat.le_refl _
  | pooled c alone =>
    rw [alone]
    exact Nat.zero_le _
  | givenUp c isOpen => cases a.state h <;> simp [LedgerState.rank]
  | triggered k shared isOpen =>
    cases state : a.state h with
    | resolved => simp [state, LedgerState.isOpen] at isOpen
    | _ => simp [LedgerState.rank]
  | released k shared frozen =>
    rw [frozen]
    exact Nat.le_succ _

theorem Turns.of_onward (ta : a.Tidy) (tb : b.Tidy) (onward : a.groups.Onward b.groups) :
    Turns a h c (b.state h) := by
  have stays : b.state h = a.state h → Turns a h c (b.state h) := fun same => same ▸ .stays c
  cases found : a.groups.groupOf? h with
  | none =>
    exact stays (by rw [tb.state_eq_resolved.mpr (onward.spent h found),
      ta.state_eq_resolved.mpr found])
  | some g =>
    have before := ta.state_of_groupOf? found
    rcases state_of_mem (Groups.groupOf?_spec found).1 with isOpen | frozen
    · cases next : b.groups.groupOf? h with
      | none =>
        rw [tb.state_eq_resolved.mpr next]
        exact .givenUp c (before ▸ isOpen)
      | some l =>
        obtain ⟨isOpen', rank⟩ := onward.opened h g l found isOpen next
        have after := tb.state_of_groupOf? next
        cases g_state : g.state <;> cases l_state : l.state <;>
          simp_all [LedgerState.isOpen, LedgerState.rank]
        exact .pooled c before
    · have kept := onward.frozen h g found (by rw [frozen]; rfl)
      exact stays (by rw [tb.state_of_groupOf? kept, before])

theorem Tidy.groupOf?_drained (t : a.Tidy) {g : Group} (mem : g ∈ a.groups) (h : Handle) :
    (a.groups.put g.drained).groupOf? h =
      (a.groups.groupOf? h).map fun l => if l.lead = g.lead then g.drained else l :=
  t.apart.groupOf?_put (g := g.drained) mem rfl rfl h

theorem Goes.turns (goes : Goes a b c) (ta : a.Tidy) (tb : b.Tidy)
    (old : ∀ owner, c = .create owner → h ≠ (a.create owner).1) : Turns a h c (b.state h) := by
  have stays : ∀ {c}, b.groups.groupOf? h = a.groups.groupOf? h → Turns a h c (b.state h) := by
    intro c same
    have same : b.state h = a.state h := by
      rw [state_matches ta, state_matches tb, Groups.state, Groups.state, same]
    exact same ▸ .stays c
  cases goes with
  | onward onward => exact .of_onward ta tb onward
  | created kept => exact stays (kept h (old _ rfl))
  | @triggered k g found groups =>
    obtain ⟨mem, inside, isOpen⟩ := Groups.open?_spec found
    have goes := ta.groupOf?_drained mem h
    rw [← groups] at goes
    cases at_h : a.groups.groupOf? h with
    | none => exact stays (by rw [goes, at_h]; rfl)
    | some l =>
      rw [at_h, Option.map_some] at goes
      by_cases same : l.lead = g.lead
      · rw [if_pos same] at goes
        have here := ta.apart.lead_injective (Groups.groupOf?_spec at_h).1 mem same
        rw [here] at at_h
        rw [tb.state_of_groupOf? goes]
        refine .triggered k (ta.sameLedger_iff.mpr ⟨g, ?_, at_h⟩) ?_
        · exact ta.apart.groupOf?_of_mem mem inside
        · rw [ta.state_of_groupOf? at_h, isOpen]
      · exact stays (by rw [goes, at_h, if_neg same])
  | @released k g found frozen groups =>
    have goes := ta.apart.groupOf?_dissolve g h
    rw [← groups] at goes
    cases at_h : a.groups.groupOf? h with
    | none => exact stays (by rw [goes, at_h]; rfl)
    | some l =>
      rw [at_h] at goes
      by_cases same : l.lead = g.lead
      · rw [Option.filter_some_neg (by simpa using same)] at goes
        have here := ta.apart.lead_injective (Groups.groupOf?_spec at_h).1
          (Groups.groupOf?_spec found).1 same
        rw [here] at at_h
        rw [tb.state_eq_resolved.mpr goes]
        exact .released k (ta.sameLedger_iff.mpr ⟨g, found, at_h⟩)
          (by rw [ta.state_of_groupOf? at_h, frozen])
      · exact stays (by rw [goes, at_h, Option.filter_some_pos (by simpa using same)])

theorem Goes.together (goes : Goes a b c) (ta : a.Tidy)
    (oldh : ∀ owner, c = .create owner → h ≠ (a.create owner).1)
    (oldk : ∀ owner, c = .create owner → k ≠ (a.create owner).1)
    (same : a.groups.groupOf? h = a.groups.groupOf? k) :
    b.groups.groupOf? h = b.groups.groupOf? k := by
  cases goes with
  | onward onward => exact onward.together h k same
  | created kept => rw [kept h (oldh _ rfl), kept k (oldk _ rfl), same]
  | triggered found groups =>
    have mem := (Groups.open?_spec found).1
    rw [groups, ta.groupOf?_drained mem, ta.groupOf?_drained mem, same]
  | released found frozen groups =>
    rw [groups, ta.apart.groupOf?_dissolve, ta.apart.groupOf?_dissolve, same]

/-- Among some handles none goes back, and none parts from another. -/
structure Forward (a b : Arena) (known : List Handle) : Prop where
  rank : ∀ h ∈ known, (a.state h).rank ≤ (b.state h).rank
  together : ∀ h ∈ known, ∀ k ∈ known, a.groups.groupOf? h = a.groups.groupOf? k →
    b.groups.groupOf? h = b.groups.groupOf? k

theorem Forward.trans {d : Arena} {known more : List Handle} (first : Forward a b known)
    (second : Forward b d more) (kept : ∀ h ∈ known, h ∈ more) : Forward a d known where
  rank h mem := Nat.le_trans (first.rank h mem) (second.rank h (kept h mem))
  together h memh k memk same :=
    second.together h (kept h memh) k (kept k memk) (first.together h memh k memk same)

theorem run_forward (t : a.Tidy) {issued : List Handle} {freed : Nat → Nat}
    (dated : Dated a issued freed) (commands : List Command)
    (few : ∀ i, freed i + timesFreed i a commands < UInt32.size) :
    Forward a (a.run commands).2 issued ∧
      Dated (a.run commands).2 (issued ++ (a.run commands).1.flatMap Reply.handles)
        fun i => freed i + timesFreed i a commands := by
  induction commands generalizing a issued freed with
  | nil =>
    refine ⟨⟨fun _ _ => Nat.le_refl _, fun _ _ _ _ same => same⟩, ?_⟩
    simpa [run, timesFreed] using dated
  | cons c rest ih =>
    have few' : ∀ i, countFreed freed a (a.perform c).2 i + timesFreed i (a.perform c).2 rest <
        UInt32.size := by
      intro i
      rw [countFreed, Nat.add_assoc]
      exact few i
    obtain ⟨fresh, dated'⟩ := perform_dated t dated c fun i =>
      Nat.lt_of_le_of_lt (Nat.le_add_right _ _) (few' i)
    have old : ∀ h ∈ issued, ∀ owner, c = .create owner → h ≠ (a.create owner).1 :=
      fun h mem owner create same => fresh owner create (same ▸ mem)
    have goes := t.perform_goes c
    have step : Forward a (a.perform c).2 issued :=
      ⟨fun h mem => (goes.turns t (t.perform c) (old h mem)).rank_le,
        fun h memh k memk same => goes.together t (old h memh) (old k memk) same⟩
    obtain ⟨forward, dated''⟩ := ih (t.perform c) dated' few'
    refine ⟨step.trans forward fun h mem => List.mem_append_left _ mem, ?_⟩
    simpa only [run, timesFreed, countFreed, List.flatMap_cons, List.append_assoc,
      Nat.add_assoc] using dated''

def issued (commands : List Command) : List Handle :=
  (empty.run commands).1.flatMap Reply.handles

theorem issued_append (earlier later : List Command) : issued (earlier ++ later) =
    issued earlier ++ ((empty.run earlier).2.run later).1.flatMap Reply.handles := by
  rw [issued, run_append, List.flatMap_append, issued]

theorem issued_forward (earlier later : List Command)
    (few : ∀ i, timesFreed i empty (earlier ++ later) < UInt32.size) :
    Forward (empty.run earlier).2 ((empty.run earlier).2.run later).2 (issued earlier) ∧
      ∀ c rest, later = c :: rest → ∀ h ∈ issued earlier, ∀ owner, c = .create owner →
        h ≠ ((empty.run earlier).2.create owner).1 := by
  have few' : ∀ i, timesFreed i empty earlier + timesFreed i (empty.run earlier).2 later <
      UInt32.size := by
    intro i
    rw [← timesFreed_append]
    exact few i
  obtain ⟨_, dated⟩ := run_forward tidy_empty dated_empty earlier fun i => by
    rw [Nat.zero_add]
    exact Nat.lt_of_le_of_lt (Nat.le_add_right _ _) (few' i)
  simp only [List.nil_append, Nat.zero_add] at dated
  refine ⟨(run_forward (tidy_empty.run earlier) dated later few').1, ?_⟩
  rintro c rest rfl h mem owner rfl same
  refine (perform_dated (tidy_empty.run earlier) dated (.create owner) fun i => ?_).1 owner rfl
    (same ▸ mem)
  rw [countFreed]
  refine Nat.lt_of_le_of_lt ?_ (few' i)
  rw [timesFreed, ← Nat.add_assoc]
  exact Nat.le_add_right _ _

theorem Tidy.trigger_freezes (t : a.Tidy) {frozen : FrozenLedger}
    (answer : (a.trigger h).1 = .ok frozen) (shared : a.sameLedger h k = true) :
    (a.trigger h).2.state k = .triggered := by
  have m := trigger_matches t h
  cases found : a.groups.open? h with
  | none =>
    rw [m.answer, Groups.trigger, found] at answer
    cases answer
  | some g =>
    obtain ⟨mem, inside, _⟩ := Groups.open?_spec found
    obtain ⟨l, at_h, at_k⟩ := t.sameLedger_iff.mp shared
    have here := t.apart.groupOf?_of_mem mem inside
    rw [at_h] at here
    cases here
    rw [Groups.trigger_open found] at m
    have groups : (a.trigger h).2.groups = a.groups.put g.drained := m.groups
    have goes := t.groupOf?_drained mem k
    rw [at_k, Option.map_some, if_pos rfl, ← groups] at goes
    exact m.tidy.state_of_groupOf? goes

theorem closed_of_rank {s : LedgerState} (rank : LedgerState.triggered.rank ≤ s.rank) :
    s.isOpen = false := by
  cases s <;> simp_all [LedgerState.rank, LedgerState.isOpen]

theorem resolved_of_rank {s : LedgerState} (rank : LedgerState.resolved.rank ≤ s.rank) :
    s = .resolved := by
  cases s <;> simp_all [LedgerState.rank]

/-- What becomes of a handle in some calls, made in an arena where `known` is handed out. -/
structure Lifelong (a : Arena) (later : List Command) (known : List Handle) (h : Handle) :
    Prop where
  forward : (a.state h).rank ≤ ((a.run later).2.state h).rank
  together : ∀ k ∈ known, a.sameLedger h k = true →
    (a.run later).2.state k = (a.run later).2.state h ∧
      ((a.run later).2.sameLedger h k = true ∨ (a.run later).2.state h = .resolved)
  merges : ∀ k x, (a.merge h k).1 = .ok x →
    (a.merge h k).2.sameLedger h k = true ∧ (a.merge h k).2.sameLedger h x = true
  turns : ∀ c rest, later = c :: rest → Turns a h c ((a.perform c).2.state h)
  /-- A trigger freezes all handles of the ledger, and no later one through any of them works. -/
  once : ∀ frozen rest, later = .trigger h :: rest → (a.trigger h).1 = .ok frozen →
    ∀ k ∈ known, a.sameLedger h k = true → (a.perform (.trigger h)).2.state k = .triggered ∧
      (a.run later).2.trigger k = (.error (.doubleCast k.index), (a.run later).2)
  gone : a.state h = .resolved → (a.run later).2.Gone h

/-- Every handle goes from accumulating over merged and triggered to resolved, with all handles of
    its ledger; only a trigger of the ledger makes it triggered, only once, and only a release of
    the ledger ends that. Resolved it stays, whatever later takes its slot: no call through it does
    anything. -/
theorem handles_go_forward (earlier later : List Command)
    (few : ∀ i, timesFreed i empty (earlier ++ later) < UInt32.size) :
    ∀ h ∈ issued earlier, Lifelong (empty.run earlier).2 later (issued earlier) h := by
  intro h mem
  have t := tidy_empty.run earlier
  have t' := t.run later
  obtain ⟨forward, old⟩ := issued_forward earlier later few
  refine ⟨forward.rank h mem, fun k memk shared => ?_,
    fun k x answer => t.sameLedger_merge answer, fun c rest next => ?_,
    fun frozen rest next answer k memk shared => ?_, fun resolved => ?_⟩
  · obtain ⟨g, at_h, at_k⟩ := t.sameLedger_iff.mp shared
    have same := forward.together h mem k memk (at_h.trans at_k.symm)
    refine ⟨by rw [state_matches t', state_matches t', Groups.state, Groups.state, same], ?_⟩
    cases at_h' : ((empty.run earlier).2.run later).2.groups.groupOf? h with
    | none => exact Or.inr (t'.state_eq_resolved.mpr at_h')
    | some l => exact Or.inl (t'.sameLedger_iff.mpr ⟨l, at_h', same ▸ at_h'⟩)
  · exact (t.perform_goes c).turns t (t.perform c) (old c rest next h mem)
  · have triggered := t.trigger_freezes answer shared
    refine ⟨triggered, t'.trigger_spent (closed_of_rank ?_)⟩
    -- The calls after the trigger send its handles on from triggered.
    subst next
    have after := (issued_forward (earlier ++ [.trigger h]) rest (by simpa using few)).1
    have known : k ∈ issued (earlier ++ [.trigger h]) := by
      rw [issued_append]
      exact List.mem_append_left _ memk
    have rank := after.rank k known
    simp only [run_append, run, perform] at rank ⊢
    rwa [triggered] at rank
  · refine t'.gone (resolved_of_rank ?_)
    rw [← resolved]
    exact forward.rank h mem

/-- The two handles of the recycled slots are resolved after eight calls, and five more leave them
    so. -/
theorem recycling_goes_forward :
    (∀ i, timesFreed i empty (recycling.take 8 ++ recycling.drop 8) < UInt32.size) ∧
      (⟨0, 0⟩ : Handle) ∈ issued (recycling.take 8) ∧
      Lifelong (empty.run (recycling.take 8)).2 (recycling.drop 8) (issued (recycling.take 8))
        ⟨0, 0⟩ :=
  have few : ∀ i, timesFreed i empty (recycling.take 8 ++ recycling.drop 8) < UInt32.size :=
    fun i => Nat.lt_of_le_of_lt (timesFreed_le_length i empty _) (by decide)
  have mem : (⟨0, 0⟩ : Handle) ∈ issued (recycling.take 8) := by decide
  ⟨few, mem, handles_go_forward (recycling.take 8) (recycling.drop 8) few ⟨0, 0⟩ mem⟩

end LazyCast.Arena
