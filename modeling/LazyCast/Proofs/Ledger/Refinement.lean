import LazyCast.Proofs.Ledger.Ageing
import LazyCast.Proofs.Ledger.Pooling
/-!
Whole runs of calls. Every run from the empty arena is answered as the plain account answers it, as
long as no slot has been freed so often that its generations start over.
-/
namespace LazyCast

namespace Groups
variable {gs : Groups} {g k : Group}

theorem mem_put (mem : k ∈ gs) (same : k.lead = g.lead) : g ∈ gs.put g :=
  List.mem_map.mpr ⟨k, mem, if_pos same⟩

theorem merge_lead {h k x : Handle} (answer : (gs.merge h k).1 = .ok x) :
    ∃ g ∈ (gs.merge h k).2, g.lead = x := by
  rcases gs.merge_cases h k with ⟨e, failed⟩ | ⟨g, l, found, _, _, kept⟩ | ⟨g, l, found, _, ne, made⟩
  · rw [failed] at answer
    cases answer
  · rw [kept] at answer ⊢
    cases answer
    exact ⟨g, (open?_spec found).1, rfl⟩
  · rw [made] at answer ⊢
    cases answer
    exact ⟨g.join l, (mem_merged (open?_spec found).1 ne).mpr (Or.inl rfl), rfl⟩

theorem mergeAll_lead {h next x : Handle} {rest : List Handle}
    (answer : (gs.mergeAll h (next :: rest)).1 = .ok x) :
    ∃ g ∈ (gs.mergeAll h (next :: rest)).2, g.lead = x := by
  induction rest generalizing gs h next with
  | nil =>
    have lead := @merge_lead gs h next x
    rcases merged : gs.merge h next with ⟨e | y, left⟩
    · simp only [mergeAll, merged, Outcome.andThen_error] at answer
      cases answer
    · simp only [mergeAll, merged, Outcome.andThen_ok] at answer lead ⊢
      exact lead answer
  | cons second rest ih =>
    rw [mergeAll] at answer ⊢
    rcases merged : gs.merge h next with ⟨e | y, left⟩
    · simp only [merged, Outcome.andThen_error] at answer
      cases answer
    · simp only [merged, Outcome.andThen_ok] at answer ⊢
      exact ih answer

theorem interact_lead {values : List Handle} {independent : Bool} {x : Handle}
    (answer : (gs.interact values independent).1 = .ok (some x)) :
    ∃ g ∈ (gs.interact values independent).2, g.lead = x := by
  match values with
  | [] => cases answer
  | [_] => cases answer
  | first :: second :: rest =>
    cases independent with
    | true => cases answer
    | false =>
      simp only [interact, Bool.false_eq_true, if_false, Outcome.map] at answer ⊢
      cases pooled : (gs.mergeAll first (second :: rest)).1 with
      | error e =>
        rw [pooled] at answer
        cases answer
      | ok y =>
        rw [pooled] at answer
        cases answer
        exact mergeAll_lead pooled

theorem perform_lead {name : Handle} {c : Command} :
    ∀ h ∈ (gs.perform name c).1.handles, ∃ g ∈ (gs.perform name c).2, g.lead = h := by
  intro h mem
  cases c with
  | create owner =>
    rw [List.mem_singleton.mp mem]
    exact ⟨_, mem_create.mpr (Or.inl rfl), rfl⟩
  | merge v w =>
    cases answer : (gs.merge v w).1 with
    | error e => simp [perform, answer, Reply.handles] at mem
    | ok x =>
      simp only [perform, answer, Reply.handles, List.mem_singleton] at mem
      rw [mem]
      exact merge_lead answer
  | interact how values independent =>
    rcases answer : (gs.interact values independent).1 with e | x | x
    · simp [perform, answer, Reply.handles] at mem
    · simp [perform, answer, Reply.handles] at mem
    · simp only [perform, answer, Reply.handles, List.mem_singleton] at mem
      rw [mem]
      exact interact_lead answer
  | append h i => cases mem
  | addOwner h owner => cases mem
  | state h => cases mem
  | find h => cases mem
  | sameLedger h k => cases mem
  | trigger h => cases mem
  | release h => cases mem
  | dropOwner h owner => cases mem
  | sweep => cases mem
  | live => cases mem

end Groups

namespace Arena
variable {a : Arena}

theorem Tidy.apart (t : a.Tidy) : a.groups.Apart := by
  obtain ⟨⟨root, depth, c⟩, _⟩ := t
  have at_lead : ∀ g ∈ a.groups, g.lead ∈ g.handles := by
    intro g mem
    obtain ⟨i, at_i⟩ := mem_groups.mp mem
    obtain ⟨lead, ms, found, handles⟩ := groupAt?_eq_some at_i
    rw [lead, handles]
    exact List.mem_map_of_mem ((c.mem_members found i).mpr (c.at_root found))
  refine ⟨at_lead, fun g memg k memk h ing ink => ?_⟩
  obtain ⟨i, at_i⟩ := mem_groups.mp memg
  obtain ⟨j, at_j⟩ := mem_groups.mp memk
  have same := ((mem_handles c at_i h).mp ing).symm.trans ((mem_handles c at_j h).mp ink)
  rw [Option.some.inj same, at_j] at at_i
  exact (Option.some.inj at_i).symm

theorem Tidy.numbered (t : a.Tidy) : ∀ g ∈ a.groups, Numbered g.instructions := by
  intro g mem
  obtain ⟨i, at_i⟩ := mem_groups.mp mem
  unfold groupAt? at at_i
  split at at_i
  · rename_i l e
    cases at_i
    exact (t.sound e).numbered
  · cases at_i
    rfl
  · cases at_i

theorem Tidy.perform (t : a.Tidy) (c : Command) : (a.perform c).2.Tidy :=
  (perform_matches t c).choose_spec.1.tidy

theorem Tidy.reply_numbered (t : a.Tidy) (c : Command) :
    Numbered (a.perform c).1.instructions := by
  obtain ⟨name, m, _⟩ := perform_matches t c
  rw [m.answer]
  have shown : ∀ {h g}, a.groups.open? h = some g → Numbered g.instructions :=
    fun found => t.numbered _ (Groups.open?_spec found).1
  cases c with
  | find h =>
    cases found : a.groups.open? h with
    | none => simp [Groups.perform, found, Reply.instructions, Numbered]
    | some g =>
      simp only [Groups.perform, found, Option.map_some, Reply.instructions, Group.view]
      exact shown found
  | trigger h =>
    cases found : a.groups.open? h with
    | none => simp [Groups.perform, Groups.trigger, found, Reply.instructions, Numbered]
    | some g =>
      simp only [Groups.perform, Groups.trigger, found, Reply.instructions]
      exact shown found
  | _ => rfl

theorem root_of_lead {g : Group} (mem : g ∈ a.groups) :
    a.inUse g.lead.index = true ∧ a.handleOf g.lead.index = g.lead := by
  obtain ⟨i, at_i⟩ := mem_groups.mp mem
  obtain ⟨lead, ms, found, _⟩ := groupAt?_eq_some at_i
  rw [lead, handleOf_index]
  exact ⟨inUse_of_members found, rfl⟩

theorem Tidy.slot_created (t : a.Tidy) (owner : ValueId) :
    ∀ g ∈ a.groups, ∀ h ∈ g.handles, h.index ≠ (a.create owner).1.index := by
  intro g mem h inside same
  obtain ⟨root, depth, c⟩ := t.charted
  obtain ⟨i, at_i⟩ := mem_groups.mp mem
  obtain ⟨_, ms, members, handles⟩ := groupAt?_eq_some at_i
  rw [handles] at inside
  obtain ⟨j, among, rfl⟩ := List.mem_map.mp inside
  have used := c.inUse_of_root ((c.mem_members members j).mp among)
  rw [handleOf_index] at same
  rw [same, inUse] at used
  rcases (create_opened c owner).unused with vacant | none
  · simp [vacant] at used
  · simp [none] at used

theorem perform_dated (t : a.Tidy) {issued : List Handle} {freed : Nat → Nat}
    (dated : Dated a issued freed) (c : Command)
    (small : ∀ i, countFreed freed a (a.perform c).2 i < UInt32.size) :
    (∀ owner, c = .create owner → (a.create owner).1 ∉ issued) ∧
      Dated (a.perform c).2 (issued ++ (a.perform c).1.handles)
        (countFreed freed a (a.perform c).2) := by
  cases create : c.isCreate with
  | false =>
    refine ⟨fun owner same => ?_, ?_⟩
    · rw [same] at create
      cases create
    · obtain ⟨name, m, _⟩ := perform_matches t c
      refine dated.recede (recedes_perform t c create) small fun h mem => ?_
      rw [m.answer] at mem
      obtain ⟨g, mem', rfl⟩ := Groups.perform_lead h mem
      rw [← m.groups] at mem'
      exact root_of_lead mem'
  | true =>
    cases c with
    | create owner =>
      obtain ⟨root, depth, charted⟩ := t.charted
      have o := create_opened charted owner
      have handle := create_handle a owner
      have few := small (a.create owner).1.index
      simp only [Arena.perform, Dated.countFreed_opened o] at few
      refine ⟨fun _ same => ?_, ?_⟩
      · cases same
        rw [handle]
        exact dated.fresh o few
      · have grown := dated.grow o few
        rw [← handle] at grown
        exact grown
    | _ => cases create

theorem run_answers (t : a.Tidy) {issued : List Handle} {freed : Nat → Nat}
    (dated : Dated a issued freed) (commands : List Command)
    (few : ∀ i, freed i + timesFreed i a commands < UInt32.size) :
    Groups.Answers issued a.groups commands (a.run commands).1 (a.run commands).2.groups ∧
      (∀ reply ∈ (a.run commands).1, Numbered reply.instructions) ∧ (a.run commands).2.Tidy := by
  induction commands generalizing a issued freed with
  | nil => exact ⟨.done issued a.groups, by simp [run], t⟩
  | cons c rest ih =>
    obtain ⟨name, m, named⟩ := perform_matches t c
    have few' : ∀ i, countFreed freed a (a.perform c).2 i + timesFreed i (a.perform c).2 rest <
        UInt32.size := by
      intro i
      rw [countFreed, Nat.add_assoc]
      exact few i
    -- The call uses up its own share of the generations; the rest of the run has the others.
    obtain ⟨fresh, dated'⟩ := perform_dated t dated c fun i =>
      Nat.lt_of_le_of_lt (Nat.le_add_right _ _) (few' i)
    obtain ⟨answers, numbered, tidy⟩ := ih m.tidy dated' few'
    refine ⟨?_, ?_, tidy⟩
    · simp only [run]
      rw [m.answer] at answers ⊢
      rw [m.groups] at answers
      refine .call name (fun create => ?_) answers
      cases c with
      | create owner =>
        rw [named owner rfl]
        exact ⟨fresh owner rfl, t.slot_created owner⟩
      | _ => cases create
    · intro reply mem
      rcases List.mem_cons.mp mem with same | mem
      · rw [same]
        exact t.reply_numbered c
      · exact numbered reply mem

theorem Tidy.interact_pools (t : a.Tidy) (how : Interaction) {values : List Handle}
    (two : 2 ≤ values.length) (opened : ∀ h ∈ values, (a.state h).isOpen = true) :
    ∃ g others, a.groups.distinctOpen values = g :: others ∧
      (a.interact how values false).1 = .ok (some g.lead) ∧
      (a.interact how values false).2.groups =
        (others.foldl Groups.dissolve a.groups).put (others.foldl Group.join g) ∧
      (others.foldl Group.join g).instructions =
        renumber ((a.groups.distinctOpen values).flatMap Group.instructions) := by
  have opened' : ∀ h ∈ values, a.groups.open? h ≠ none := by
    intro h mem
    have isOpen := opened h mem
    rw [state_matches t, Groups.state] at isOpen
    cases found : a.groups.groupOf? h with
    | none =>
      rw [found] at isOpen
      cases isOpen
    | some g =>
      rw [found] at isOpen
      simp [Groups.open?, found, Option.filter_some, isOpen]
  obtain ⟨g, others, distinct, pooled⟩ := Groups.interact_pools t.apart two opened'
  have m := interact_matches t how values false
  rw [pooled] at m
  have mem : g ∈ a.groups := by
    cases values with
    | nil => cases two
    | cons first rest =>
      obtain ⟨k, found⟩ := Option.ne_none_iff_exists'.mp (opened' first List.mem_cons_self)
      rw [Groups.distinctOpen_cons found] at distinct
      cases distinct
      exact (Groups.open?_spec found).1
  refine ⟨g, others, distinct, m.answer, m.groups, ?_⟩
  rw [distinct]
  exact Group.instructions_foldl_join g (t.numbered g mem) others

/-- Every run from the empty arena is answered as the plain account answers it; whatever it shows
    of a ledger, and every ledger it leaves open, is numbered in order; and handles of open ledgers
    are pooled in the order in which their groups first occur. -/
theorem answers_as_groups (commands : List Command)
    (few : ∀ i, timesFreed i empty commands < UInt32.size) :
    Groups.Answers [] [] commands (empty.run commands).1 (empty.run commands).2.groups ∧
      (empty.run commands).2.groups.Apart ∧
      (∀ reply ∈ (empty.run commands).1, Numbered reply.instructions) ∧
      (∀ i l, (empty.run commands).2.ledgerAt? i = some l → Numbered l.instructions) ∧
      ∀ how values, 2 ≤ values.length →
        (∀ h ∈ values, ((empty.run commands).2.state h).isOpen = true) →
        ∃ g others, (empty.run commands).2.groups.distinctOpen values = g :: others ∧
          ((empty.run commands).2.interact how values false).1 = .ok (some g.lead) ∧
          ((empty.run commands).2.interact how values false).2.groups =
            (others.foldl Groups.dissolve (empty.run commands).2.groups).put
              (others.foldl Group.join g) ∧
          (others.foldl Group.join g).instructions = renumber
            (((empty.run commands).2.groups.distinctOpen values).flatMap Group.instructions) := by
  have few' : ∀ i, 0 + timesFreed i empty commands < UInt32.size := by
    intro i
    rw [Nat.zero_add]
    exact few i
  obtain ⟨answers, numbered, t⟩ := run_answers tidy_empty dated_empty commands few'
  exact ⟨answers, t.apart, numbered,
    fun i l e => (t.sound (ledgerAt?_eq_some.mp e)).numbered,
    fun how _ two opened => t.interact_pools how two opened⟩

def recycling : List Command :=
  [.create 1, .create 2, .append ⟨0, 0⟩ ⟨7, "h", [], .quantum⟩,
    .append ⟨1, 0⟩ ⟨7, "x", [], .quantum⟩, .merge ⟨1, 0⟩ ⟨0, 0⟩, .find ⟨0, 0⟩, .trigger ⟨0, 0⟩,
    .release ⟨1, 0⟩, .create 3, .append ⟨0, 0⟩ ⟨0, "z", [], .quantum⟩, .state ⟨0, 0⟩, .state ⟨0, 1⟩,
    .sweep]

theorem recycling_answers : (∀ i, timesFreed i empty recycling < UInt32.size) ∧
    Groups.Answers [] [] recycling (empty.run recycling).1 (empty.run recycling).2.groups :=
  have few : ∀ i, timesFreed i empty recycling < UInt32.size := fun i =>
    Nat.lt_of_le_of_lt (timesFreed_le_length i empty recycling) (by decide)
  ⟨few, (answers_as_groups recycling few).1⟩

end Arena
end LazyCast
