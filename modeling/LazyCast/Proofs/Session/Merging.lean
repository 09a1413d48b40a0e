import LazyCast.Proofs.Ledger.Stopping
import LazyCast.Proofs.Ledger.Counting
import LazyCast.Proofs.Session.Effects
import Mathlib.Data.Finset.Card
/-!
What pooling says it did, against what became of the ledgers. It says that ledgers were merged as soon
as it is handed two handles that are not known to be independent. The open ledgers become fewer by all
but one of those behind the handles, so what it says is untrue of two handles of one ledger.
-/
namespace LazyCast

namespace Groups
variable {gs : Groups} {g k : Group} {ks : List Group} {h x : Handle}

theorem live_perm {hs : Groups} (perm : gs.Perm hs) : gs.live = hs.live :=
  (perm.filter _).length_eq

theorem live_cons (isOpen : g.state.isOpen = true) (gs : Groups) : live (g :: gs) = live gs + 1 := by
  unfold live
  rw [List.filter_cons, if_pos isOpen, List.length_cons]

theorem live_dissolve (apart : gs.Apart) (nodup : gs.Nodup) (mem : g ∈ gs)
    (isOpen : g.state.isOpen = true) : gs.live = (gs.dissolve g).live + 1 := by
  rw [live_perm (perm_dissolve apart nodup mem), live_cons isOpen]

theorem live_put (apart : gs.Apart) (nodup : gs.Nodup) (mem : g ∈ gs)
    (isOpen : g.state.isOpen = true) (lead : k.lead = g.lead) (isOpen' : k.state.isOpen = true) :
    (gs.put k).live = gs.live := by
  rw [live_perm (perm_put apart nodup mem lead), live_cons isOpen',
    live_dissolve apart nodup mem isOpen]

theorem live_foldl_dissolve (apart : gs.Apart) (nodup : gs.Nodup)
    (mem : ∀ k ∈ ks, k ∈ gs) (opened : ∀ k ∈ ks, k.state.isOpen = true)
    (distinct : (ks.map Group.lead).Nodup) : gs.live = (ks.foldl dissolve gs).live + ks.length := by
  induction ks generalizing gs with
  | nil => rfl
  | cons k ks ih =>
    obtain ⟨other, distinct⟩ := List.nodup_cons.mp distinct
    have kept : ∀ l ∈ ks, l ∈ gs.dissolve k := fun l meml =>
      mem_dissolve.mpr ⟨mem l (List.mem_cons_of_mem k meml),
        fun same => other (List.mem_map.mpr ⟨l, meml, same⟩)⟩
    have step := live_dissolve apart nodup (mem k List.mem_cons_self) (opened k List.mem_cons_self)
    have apart' : (gs.dissolve k).Apart := apart.filter _
    have nodup' : (gs.dissolve k).Nodup := nodup.filter _
    have rest := ih apart' nodup' kept
      (fun l meml => opened l (List.mem_cons_of_mem k meml)) distinct
    rw [List.foldl_cons, List.length_cons, step, rest, Nat.add_assoc]

theorem mem_distinctOpen {values : List Handle} (apart : gs.Apart) :
    k ∈ gs.distinctOpen values ↔ ∃ h ∈ values, gs.open? h = some k := by
  induction values with
  | nil => simp [distinctOpen]
  | cons h rest ih =>
    cases found : gs.open? h with
    | none => simp [distinctOpen, found, ih]
    | some g =>
      rw [distinctOpen_cons found, List.mem_cons, mem_dissolve, ih]
      simp only [List.mem_cons, exists_eq_or_imp, found, Option.some.injEq]
      constructor
      · rintro (rfl | ⟨later, _⟩)
        · exact Or.inl rfl
        · exact Or.inr later
      · rintro (rfl | later)
        · exact Or.inl rfl
        · by_cases same : k.lead = g.lead
          · obtain ⟨v, _, at_v⟩ := later
            exact Or.inl (apart.lead_injective (open?_spec at_v).1 (open?_spec found).1 same)
          · exact Or.inr ⟨later, same⟩

theorem nodup_distinctOpen (gs : Groups) (values : List Handle) :
    ((gs.distinctOpen values).map Group.lead).Nodup := by
  induction values with
  | nil => exact List.nodup_nil
  | cons h rest ih =>
    cases found : gs.open? h with
    | none => simpa [distinctOpen, found] using ih
    | some g =>
      rw [distinctOpen_cons found, List.map_cons, List.nodup_cons]
      refine ⟨fun mem => ?_, ih.sublist (List.filter_sublist.map _)⟩
      obtain ⟨l, meml, same⟩ := List.mem_map.mp mem
      exact (mem_dissolve.mp meml).2 same

theorem mergeAll_opened {rest : List Handle} (apart : gs.Apart) (found : gs.open? h = some g)
    (went : (gs.mergeAll h rest).1 = .ok x) : ∀ k ∈ rest, gs.open? k ≠ none := by
  induction rest generalizing gs h g with
  | nil => exact fun k mem => absurd mem List.not_mem_nil
  | cons next rest ih =>
    intro k mem closed
    cases foundl : gs.open? next with
    | none =>
      rw [mergeAll, merge_closed found foundl, Outcome.andThen_error] at went
      cases went
    | some l =>
      obtain ⟨middle, merged, pooled, _⟩ := merge_pooled apart found foundl
      obtain ⟨m, foundm, _⟩ := pooled.shared
      rw [mergeAll, merged, Outcome.andThen_ok] at went
      rcases List.mem_cons.mp mem with rfl | mem
      · rw [foundl] at closed
        cases closed
      · exact ih pooled.apart foundm went k mem (pooled.onward.open?_eq_none closed)

theorem isOpen_foldl_join (isOpen : g.state.isOpen = true) (others : List Group) :
    (others.foldl Group.join g).state.isOpen = true := by
  induction others generalizing g with
  | nil => exact isOpen
  | cons l others ih => exact ih rfl

theorem interact_opened {values : List Handle} {lead : Handle} (apart : gs.Apart)
    (went : (gs.interact values false).1 = .ok (some lead)) :
    2 ≤ values.length ∧ ∀ h ∈ values, gs.open? h ≠ none := by
  match values with
  | [] => cases went
  | [_] => cases went
  | first :: second :: rest =>
    refine ⟨by simp, fun h mem => ?_⟩
    simp only [interact, Bool.false_eq_true, if_false, Outcome.map] at went
    cases answer : (gs.mergeAll first (second :: rest)).1 with
    | error e =>
      rw [answer] at went
      cases went
    | ok x =>
      cases found : gs.open? first with
      | none =>
        simp only [mergeAll, merge, found, Outcome.andThen_error] at answer
        cases answer
      | some g =>
        rcases List.mem_cons.mp mem with rfl | mem
        · simp [found]
        · exact mergeAll_opened apart found answer h mem

theorem live_pooled {values : List Handle} {others : List Group} (apart : gs.Apart)
    (nodup : gs.Nodup) (distinct : gs.distinctOpen values = g :: others) :
    gs.live = ((others.foldl dissolve gs).put (others.foldl Group.join g)).live + others.length := by
  have inside : ∀ k ∈ g :: others, k ∈ gs ∧ k.state.isOpen = true := by
    intro k mem
    rw [← distinct, mem_distinctOpen apart] at mem
    obtain ⟨h, _, found⟩ := mem
    exact ⟨(open?_spec found).1, (open?_spec found).2.2⟩
  have named := nodup_distinctOpen gs values
  rw [distinct] at named
  obtain ⟨other, named⟩ := List.nodup_cons.mp named
  obtain ⟨memg, openg⟩ := inside g List.mem_cons_self
  -- The group that takes the others up is none of those that are dissolved.
  have kept : g ∈ others.foldl dissolve gs := by
    rw [foldl_dissolve]
    refine List.mem_filter.mpr ⟨memg, List.all_eq_true.mpr fun k mem => decide_eq_true ?_⟩
    exact fun same => other (List.mem_map.mpr ⟨k, mem, same.symm⟩)
  have apart' : (others.foldl dissolve gs).Apart := foldl_dissolve gs others ▸ apart.filter _
  have nodup' : (others.foldl dissolve gs).Nodup := foldl_dissolve gs others ▸ nodup.filter _
  rw [live_put apart' nodup' kept openg (lead_foldl_join g others) (isOpen_foldl_join openg others)]
  exact live_foldl_dissolve apart nodup (fun k mem => (inside k (List.mem_cons_of_mem g mem)).1)
    (fun k mem => (inside k (List.mem_cons_of_mem g mem)).2) named

theorem live_interact {values : List Handle} (apart : gs.Apart) (nodup : gs.Nodup)
    (two : 2 ≤ values.length) (opened : ∀ h ∈ values, gs.open? h ≠ none) :
    gs.live = (gs.interact values false).2.live + ((gs.distinctOpen values).length - 1) := by
  obtain ⟨g, others, distinct, pooled⟩ := interact_pools apart two opened
  rw [pooled, distinct]
  exact live_pooled apart nodup distinct

end Groups

namespace Arena
variable {a : Arena} {values : List Handle}

def ledgersBehind (a : Arena) (values : List Handle) : Nat := (values.map a.lookup).toFinset.card

/-- What pooling said, whether true or not, and how many open ledgers it left. -/
structure Reports (a after : Arena) (values : List Handle) (independent said : Bool) : Prop where
  said_iff : said = true ↔ independent = false ∧ 2 ≤ values.length
  fewer : a.live = after.live + if said then a.ledgersBehind values - 1 else 0
  /-- Where it said so, there is a ledger behind the handles. -/
  some_behind : said = true → 1 ≤ a.ledgersBehind values
  true_unless : (said = true ↔ after.live < a.live) ↔
    ¬ (said = true ∧ a.ledgersBehind values = 1)

theorem Tidy.lookup_of_open (t : a.Tidy) {h : Handle} {g : Group}
    (found : a.groups.open? h = some g) : a.lookup h = .live g.lead.index := by
  obtain ⟨⟨root, depth, c⟩, _⟩ := t
  cases c.found h with
  | live r l lookup _ _ group =>
    rw [open?_of_live group] at found
    cases found
    rw [lookup, liveGroup, handleOf_index]
  | triggered r ms _ _ _ group =>
    rw [open?_of_triggered group] at found
    cases found
  | gone _ _ group =>
    rw [open?_of_gone group] at found
    cases found

theorem Tidy.ledgersBehind_eq (t : a.Tidy) (opened : ∀ h ∈ values, a.groups.open? h ≠ none) :
    a.ledgersBehind values = (a.groups.distinctOpen values).length := by
  have distinct : ((a.groups.distinctOpen values).map fun g => Lookup.live g.lead.index).Nodup := by
    refine (List.Nodup.of_map Group.lead (a.groups.nodup_distinctOpen values)).map_on ?_
    intro g memg l meml same
    obtain ⟨h, _, foundg⟩ := (Groups.mem_distinctOpen t.apart).mp memg
    obtain ⟨k, _, foundl⟩ := (Groups.mem_distinctOpen t.apart).mp meml
    have memg := (Groups.open?_spec foundg).1
    have meml := (Groups.open?_spec foundl).1
    refine t.apart.lead_injective memg meml ?_
    rw [← (root_of_lead memg).2, ← (root_of_lead meml).2, Lookup.live.inj same]
  rw [ledgersBehind, ← List.length_map (fun g : Group => Lookup.live g.lead.index),
    ← List.toFinset_card_of_nodup distinct]
  congr 1
  ext found
  simp only [List.mem_toFinset, List.mem_map]
  constructor
  · rintro ⟨h, mem, rfl⟩
    obtain ⟨g, at_g⟩ := Option.ne_none_iff_exists'.mp (opened h mem)
    exact ⟨g, (Groups.mem_distinctOpen t.apart).mpr ⟨h, mem, at_g⟩, (t.lookup_of_open at_g).symm⟩
  · rintro ⟨g, mem, rfl⟩
    obtain ⟨h, memh, at_g⟩ := (Groups.mem_distinctOpen t.apart).mp mem
    exact ⟨h, memh, t.lookup_of_open at_g⟩

theorem ledgersBehind_pos (some : 2 ≤ values.length) : 1 ≤ a.ledgersBehind values := by
  obtain ⟨first, rest, rfl⟩ := List.exists_cons_of_length_pos (Nat.lt_of_lt_of_le Nat.two_pos some)
  exact Finset.card_pos.mpr ⟨a.lookup first, by simp⟩

theorem interact_idle (how : Interaction) {independent : Bool}
    (idle : ¬ (independent = false ∧ 2 ≤ values.length)) :
    a.interact how values independent = (.ok none, a) := by
  match values, independent with
  | [], _ => rfl
  | [_], _ => rfl
  | _ :: _ :: _, true => rfl
  | _ :: _ :: _, false => exact absurd ⟨rfl, by simp⟩ idle

theorem isSome_interact {how : Interaction} {independent : Bool} {answer : Option Handle}
    (went : (a.interact how values independent).1 = .ok answer) :
    answer.isSome = true ↔ independent = false ∧ 2 ≤ values.length := by
  by_cases busy : independent = false ∧ 2 ≤ values.length
  · refine iff_of_true ?_ busy
    obtain ⟨rfl, two⟩ := busy
    match values with
    | first :: second :: rest =>
      simp only [interact, Bool.false_eq_true, if_false, Outcome.map] at went
      cases merged : (a.mergeAll first (second :: rest)).1 with
      | ok x =>
        rw [merged] at went
        cases went
        rfl
      | error e =>
        rw [merged] at went
        cases went
  · rw [interact_idle how busy] at went
    cases went
    simp [busy]

theorem Tidy.reports (t : a.Tidy) (how : Interaction) {independent : Bool} {answer : Option Handle}
    (went : (a.interact how values independent).1 = .ok answer) :
    Reports a (a.interact how values independent).2 values independent answer.isSome := by
  have said := isSome_interact went
  cases answer with
  | none =>
    have idle : ¬ (independent = false ∧ 2 ≤ values.length) := fun busy => by cases said.mpr busy
    rw [interact_idle how idle]
    exact ⟨said, rfl, fun no => (Bool.false_ne_true no).elim, by simp⟩
  | some lead =>
    obtain ⟨rfl, two⟩ := said.mp rfl
    have m := interact_matches t how values false
    have opened := (Groups.interact_opened t.apart (m.answer ▸ went)).2
    have fewer : a.live = (a.interact how values false).2.live + (a.ledgersBehind values - 1) := by
      rw [live_matches, live_matches, m.groups, t.ledgersBehind_eq opened]
      exact Groups.live_interact t.apart (nodup_groups a) two opened
    have some_behind := ledgersBehind_pos (a := a) two
    refine ⟨said, fewer, fun _ => some_behind, ?_⟩
    simp only [Option.isSome_some, true_iff, true_and]
    omega

end Arena

/-- Pooling that goes through says that ledgers were merged just where it was handed at least two
    handles that are not known to be independent, and then all ledgers behind them have become one. So
    it says the truth unless they shared one ledger before; a session says the same as its arena. -/
theorem pooling_reports (how : Interaction) (independent : Bool) :
    (∀ commands values answer,
      ((Arena.empty.run commands).2.interact how values independent).1 = .ok answer →
      Arena.Reports (Arena.empty.run commands).2
        ((Arena.empty.run commands).2.interact how values independent).2 values independent
        answer.isSome) ∧
    ∀ setup past s, Session.Reached setup past s → ∀ values said,
      (s.interact how values independent).1 = .ok said →
      Arena.Reports s.arena (s.interact how values independent).2.arena
        (values.map LazyValue.ledger) independent said := by
  constructor
  · intro commands values answer went
    exact (Arena.tidy_empty.run commands).reports how went
  · intro setup past s reached values said went
    have answered : ∃ answer, (s.arena.interact how (values.map LazyValue.ledger) independent).1 =
        .ok answer ∧ answer.isSome = said := by
      change ((s.arena.interact how (values.map LazyValue.ledger) independent).1.map
        Option.isSome) = .ok said at went
      cases answer : (s.arena.interact how (values.map LazyValue.ledger) independent).1 with
      | ok answer' =>
        rw [answer] at went
        exact ⟨answer', rfl, Except.ok.inj went⟩
      | error e =>
        rw [answer] at went
        cases went
    obtain ⟨answer, pooled, rfl⟩ := answered
    exact reached.calm.tidy.reports how pooled

def earlyBit (n : Nat) : LazyValue := ⟨n, "@bool", .quantum, ⟨n, 0⟩, [n]⟩

/-- Handles of three ledgers, one of them twice, and two values of a session. -/
theorem threeLedgers_reported :
    (((Arena.empty.run [.create 1, .create 2, .create 3]).2.interact .call
        [⟨0, 0⟩, ⟨1, 0⟩, ⟨0, 0⟩, ⟨2, 0⟩] false).1 = .ok (some ⟨0, 0⟩) ∧
      Arena.Reports (Arena.empty.run [.create 1, .create 2, .create 3]).2
        ((Arena.empty.run [.create 1, .create 2, .create 3]).2.interact .call
          [⟨0, 0⟩, ⟨1, 0⟩, ⟨0, 0⟩, ⟨2, 0⟩] false).2
        [⟨0, 0⟩, ⟨1, 0⟩, ⟨0, 0⟩, ⟨2, 0⟩] false true) ∧
    ∃ past s, Session.Reached (.ofRegistry .builtin) past s ∧
      (s.interact .branch [earlyBit 0, earlyBit 1] false).1 = .ok true ∧
      Arena.Reports s.arena (s.interact .branch [earlyBit 0, earlyBit 1] false).2.arena
        [⟨0, 0⟩, ⟨1, 0⟩] false true := by
  refine ⟨⟨rfl, (pooling_reports .call false).1 _ _ (some ⟨0, 0⟩) rfl⟩, ?_⟩
  obtain ⟨first, started, said⟩ : ∃ first, (SessionSetup.ofRegistry .builtin).start = .ok first ∧
      ((first.run [.lazyValue "@bool", .lazyValue "@bool"]).2.interact .branch
        [earlyBit 0, earlyBit 1] false).1 = .ok true := ⟨_, rfl, rfl⟩
  have reached := Session.reached_run started [.lazyValue "@bool", .lazyValue "@bool"]
  exact ⟨_, _, reached, said, (pooling_reports .branch false).2 _ _ _ reached _ _ said⟩

/-- A handle pooled with itself is said to have been merged, and nothing was. -/
theorem itself_reported :
    ((Arena.empty.run [.create 1]).2.interact .call [⟨0, 0⟩, ⟨0, 0⟩] false).1 =
        .ok (some ⟨0, 0⟩) ∧
      (Arena.empty.run [.create 1]).2.live = 1 ∧
      ((Arena.empty.run [.create 1]).2.interact .call [⟨0, 0⟩, ⟨0, 0⟩] false).2.live = 1 ∧
      ¬ ∀ commands how values independent answer,
        ((Arena.empty.run commands).2.interact how values independent).1 = .ok answer →
        (answer.isSome = true ↔ ((Arena.empty.run commands).2.interact how values
          independent).2.live < (Arena.empty.run commands).2.live) := by
  refine ⟨rfl, rfl, rfl, fun truthful => ?_⟩
  have less := (truthful [.create 1] .call [⟨0, 0⟩, ⟨0, 0⟩] false _ rfl).mp rfl
  exact absurd less (by decide)

end LazyCast
