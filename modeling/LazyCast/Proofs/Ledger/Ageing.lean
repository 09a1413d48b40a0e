import LazyCast.Proofs.Ledger.Creation
/-!
How slots age. Every operation but the creation of a ledger takes no slot into use, and a slot that
goes out of use moves on by one generation. Counting how often that happens dates every handle.
-/
namespace LazyCast.Arena
variable {a b d : Arena} {root : Nat → Option Nat} {depth : Nat → Nat}

/-- Every slot is as it was, or has gone out of use and moved on by one generation. -/
def Recedes (a b : Arena) : Prop :=
  ∀ i, (b.generation? i = a.generation? i ∧ b.inUse i = a.inUse i) ∨
    (b.generation? i = (a.generation? i).map (· + 1) ∧ a.inUse i = true ∧ b.inUse i = false)

theorem Recedes.refl (a : Arena) : Recedes a a := fun _ => Or.inl ⟨rfl, rfl⟩

theorem Recedes.trans (first : Recedes a b) (second : Recedes b d) : Recedes a d := by
  intro i
  rcases first i with ⟨gen, use⟩ | ⟨gen, used, unused⟩
  · rcases second i with ⟨gen', use'⟩ | ⟨gen', used', unused'⟩
    · exact Or.inl ⟨gen'.trans gen, use'.trans use⟩
    · exact Or.inr ⟨gen ▸ gen', use ▸ used', unused'⟩
  · rcases second i with ⟨gen', use'⟩ | ⟨_, used', _⟩
    · exact Or.inr ⟨gen'.trans gen, used, use'.trans unused⟩
    · rw [unused] at used'
      cases used'

theorem inUse_eq_true {i : Nat} :
    a.inUse i = true ↔ ∃ e, a.entryAt? i = some e ∧ e ≠ .vacant := by
  unfold inUse
  cases a.entryAt? i with
  | none => simp
  | some e => cases e <;> simp

theorem inUse_eq_false {i : Nat} :
    a.inUse i = false ↔ a.entryAt? i = some .vacant ∨ a.entryAt? i = none := by
  unfold inUse
  cases a.entryAt? i with
  | none => simp
  | some e => cases e <;> simp

theorem inUse_of_members {i : Nat} {ms : List Nat} (found : a.members? i = some ms) :
    a.inUse i = true := by
  rcases members?_eq_some.mp found with ⟨l, e, _⟩ | e
  · exact inUse_eq_true.mpr ⟨_, e, by simp⟩
  · exact inUse_eq_true.mpr ⟨_, e, by simp⟩

theorem Repointed.recedes (p : Repointed a b) : Recedes a b := by
  intro i
  refine Or.inl ⟨p.generation i, ?_⟩
  have absent : b.entryAt? i = none ↔ a.entryAt? i = none := by
    rw [entryAt?_eq_none, entryAt?_eq_none, p.length]
  rw [Bool.eq_iff_iff, ← not_iff_not, Bool.not_eq_true, Bool.not_eq_true, inUse_eq_false,
    inUse_eq_false, p.entry (by simp), absent]

theorem recedes_setEntry {i : Nat} {e : Entry} (used : a.inUse i = true) (kept : e ≠ .vacant) :
    Recedes a (a.setEntry i e) := by
  intro j
  refine Or.inl ⟨generation?_setEntry a i j e, ?_⟩
  by_cases here : i = j
  · subst here
    obtain ⟨old, entry, _⟩ := inUse_eq_true.mp used
    rw [used]
    exact inUse_eq_true.mpr ⟨e, entryAt?_setEntry_self entry e, kept⟩
  · simp only [inUse, entryAt?_setEntry_of_ne a here]

namespace Charted

theorem inUse_of_root (c : Charted a root depth) {i r : Nat} (h : root i = some r) :
    a.inUse i = true := by
  cases use : a.inUse i with
  | true => rfl
  | false =>
    rcases inUse_eq_false.mp use with e | e
    · rw [c.at_vacant e] at h
      cases h
    · rw [c.beyond e] at h
      cases h

theorem root_of_inUse (c : Charted a root depth) {i : Nat} (used : a.inUse i = true) :
    ∃ r, root i = some r := by
  obtain ⟨e, entry, occupied⟩ := inUse_eq_true.mp used
  cases e with
  | live l => exact ⟨i, c.at_root (members?_of_live entry)⟩
  | triggered ms => exact ⟨i, c.at_root (members?_of_triggered entry)⟩
  | forward parent =>
    obtain ⟨same, some, _⟩ := c.at_forward entry
    obtain ⟨r, rooted⟩ := Option.ne_none_iff_exists'.mp some
    exact ⟨r, same.trans rooted⟩
  | vacant => exact absurd rfl occupied

theorem recedes_freeSlots (c : Charted a root depth) {r : Nat} {ms : List Nat}
    (found : a.members? r = some ms) : Recedes a (a.freeSlots ms) := by
  intro i
  rw [generation?_freeSlots a (c.members_nodup found)]
  by_cases mem : i ∈ ms
  · have used := c.inUse_of_root ((c.mem_members found i).mp mem)
    have freed : (a.freeSlots ms).inUse i = false := by
      obtain ⟨old, e, _⟩ := inUse_eq_true.mp used
      refine inUse_eq_false.mpr (Or.inl ?_)
      rw [entryAt?_freeSlots, if_pos mem, e]
      rfl
    rw [if_pos mem]
    exact Or.inr ⟨rfl, used, freed⟩
  · rw [if_neg mem]
    refine Or.inl ⟨rfl, ?_⟩
    simp only [inUse, entryAt?_freeSlots, if_neg mem]

theorem openRoot_left (c : Charted a root depth) (h : Handle) :
    Charted (a.openRoot h).2 root depth ∧ Recedes a (a.openRoot h).2 := by
  cases c.found h with
  | live r l lookup =>
    obtain ⟨b, opened, charted, p⟩ := c.openRoot_of_live lookup
    rw [opened]
    exact ⟨charted, p.recedes⟩
  | triggered r ms lookup =>
    rw [openRoot_of_not_live (by simp [lookup])]
    exact ⟨c, .refl a⟩
  | gone lookup =>
    rw [openRoot_of_not_live (by simp [lookup])]
    exact ⟨c, .refl a⟩

end Charted

theorem recedes_andThen {α β : Type} {r : Outcome Arena α} {f : α → Arena → Outcome Arena β}
    (first : Recedes a r.2) (second : ∀ x, Recedes r.2 (f x r.2).2) :
    Recedes a (r.andThen f).2 := by
  obtain ⟨answer, left⟩ := r
  cases answer with
  | ok x => exact first.trans (second x)
  | error e => exact first

theorem recedes_join (a : Arena) (ra rb : Nat) (ha hb : Handle) :
    Recedes a (a.join ra rb ha hb).2 := by
  unfold join
  split
  · exact .refl a
  · rename_i absorbed eb
    have usedb := inUse_of_members (members?_of_live (ledgerAt?_eq_some.mp eb))
    have forwarded : Recedes a (a.setEntry rb (.forward ra)) := recedes_setEntry usedb (by simp)
    dsimp only
    split
    · exact forwarded
    · rename_i target ea
      have useda := inUse_of_members (members?_of_live (ledgerAt?_eq_some.mp ea))
      exact forwarded.trans (recedes_setEntry useda (by simp))

theorem sweepStep_left (c : Charted a root depth) (done : List Diagnostic) (r : Nat) :
    (∃ root depth, Charted (sweepStep (done, a) r).2 root depth) ∧
      Recedes a (sweepStep (done, a) r).2 := by
  unfold sweepStep
  dsimp only
  split
  · rename_i l e
    have found := members?_of_live (ledgerAt?_eq_some.mp e)
    simp only [discard, e]
    exact ⟨⟨_, _, c.free found⟩, c.recedes_freeSlots found⟩
  · exact ⟨⟨root, depth, c⟩, .refl a⟩

section Operations
variable (t : a.Tidy)
include t

theorem recedes_change (h : Handle) (f : Ledger → Ledger) : Recedes a (a.change h f).2 := by
  obtain ⟨root, depth, c⟩ := t.charted
  refine recedes_andThen (c.openRoot_left h).2 fun r => ?_
  split
  · rename_i l e
    have used := inUse_of_members (members?_of_live (ledgerAt?_eq_some.mp e))
    exact recedes_setEntry used (by simp)
  · exact .refl _

theorem recedes_merge (h k : Handle) : Recedes a (a.merge h k).2 := by
  obtain ⟨root, depth, c⟩ := t.charted
  obtain ⟨charted, first⟩ := c.openRoot_left h
  refine recedes_andThen first fun ra => recedes_andThen (charted.openRoot_left k).2 fun rb => ?_
  split
  · exact .refl _
  · exact recedes_join _ ra rb h k

theorem recedes_mergeAll (h : Handle) (rest : List Handle) :
    Recedes a (a.mergeAll h rest).2 := by
  induction rest generalizing a h with
  | nil => exact .refl a
  | cons next rest ih =>
    exact recedes_andThen (recedes_merge t h next) fun k => ih (merge_matches t h next).tidy k

theorem recedes_interact (how : Interaction) (values : List Handle) (independent : Bool) :
    Recedes a (a.interact how values independent).2 := by
  unfold interact
  split
  · split
    · exact .refl a
    · exact recedes_mergeAll t _ _
  · exact .refl a

omit t in
theorem recedes_trigger (a : Arena) (h : Handle) : Recedes a (a.trigger h).2 := by
  unfold trigger
  split
  · split
    · rename_i l e
      have used := inUse_of_members (members?_of_live (ledgerAt?_eq_some.mp e))
      exact recedes_setEntry used (by simp)
    · exact .refl a
  · exact .refl a

theorem recedes_release (h : Handle) : Recedes a (a.release h).2 := by
  obtain ⟨root, depth, c⟩ := t.charted
  unfold release
  split
  · split
    · rename_i ms e
      exact c.recedes_freeSlots (members?_of_triggered e)
    · exact .refl a
  · exact .refl a

theorem recedes_dropOwner (h : Handle) (owner : ValueId) :
    Recedes a (a.dropOwner h owner).2 := by
  obtain ⟨root, depth, c⟩ := t.charted
  unfold dropOwner
  split
  · split
    · rename_i r _ _ l e
      have entry := ledgerAt?_eq_some.mp e
      obtain ⟨entry', charted, _⟩ := strike_charted c entry owner
      have struck : Recedes a (a.setEntry r (.live (strike l owner))) :=
        recedes_setEntry (inUse_of_members (members?_of_live entry)) (by simp)
      dsimp only
      split
      · have found := members?_of_live entry'
        have freed := struck.trans (charted.recedes_freeSlots found)
        simp only [discard, strike] at entry' freed ⊢
        rw [ledgerAt?_eq_some.mpr entry']
        exact freed
      · exact struck
    · exact .refl a
  · exact .refl a

omit t in
theorem recedes_sweepSteps (roots : List Nat) (done : List Diagnostic) (a : Arena)
    (charted : ∃ root depth, Charted a root depth) :
    Recedes a (roots.foldl sweepStep (done, a)).2 := by
  induction roots generalizing done a with
  | nil => exact .refl a
  | cons r rest ih =>
    obtain ⟨root, depth, c⟩ := charted
    obtain ⟨charted, step⟩ := sweepStep_left c done r
    exact step.trans (ih _ _ charted)

theorem recedes_sweep : Recedes a a.sweep.2 :=
  recedes_sweepSteps a.liveRoots [] a t.charted

theorem recedes_perform (command : Command) (other : command.isCreate = false) :
    Recedes a (a.perform command).2 := by
  cases command with
  | create owner => cases other
  | append h i => exact recedes_change t h _
  | merge h k => exact recedes_merge t h k
  | interact how values independent => exact recedes_interact t how values independent
  | addOwner h owner => exact recedes_change t h _
  | state h => exact .refl a
  | find h => exact .refl a
  | sameLedger h k => exact .refl a
  | trigger h => exact recedes_trigger a h
  | release h => exact recedes_release t h
  | dropOwner h owner => exact recedes_dropOwner t h owner
  | sweep => exact recedes_sweep t
  | live => exact .refl a

end Operations

/-- What is known of the handles handed out so far, and of how often each slot was freed. -/
structure Dated (a : Arena) (issued : List Handle) (freed : Nat → Nat) : Prop where
  generation : ∀ i, (a.generation? i).getD 0 = UInt32.ofNat (freed i)
  inside : ∀ h ∈ issued, a.generation? h.index ≠ none
  reached : ∀ h ∈ issued, h.generation.toNat ≤ freed h.index
  /-- A handle to a slot out of use is of an earlier generation. -/
  passed : ∀ h ∈ issued, a.inUse h.index = false → h.generation.toNat < freed h.index

def countFreed (freed : Nat → Nat) (a b : Arena) (i : Nat) : Nat :=
  freed i + if a.inUse i && !b.inUse i then 1 else 0

theorem dated_empty : Dated empty [] fun _ => 0 where
  generation _ := rfl
  inside := by simp
  reached := by simp
  passed := by simp

namespace Dated
variable {issued more : List Handle} {freed : Nat → Nat}

theorem generation_countFreed (d : Dated a issued freed) (r : Recedes a b) (i : Nat) :
    (b.generation? i).getD 0 = UInt32.ofNat (countFreed freed a b i) := by
  rw [countFreed]
  rcases r i with ⟨gen, use⟩ | ⟨gen, used, unused⟩
  · rw [gen, d.generation, use]
    cases a.inUse i <;> rfl
  · obtain ⟨e, entry, _⟩ := inUse_eq_true.mp used
    have some : a.generation? i ≠ none := by
      rw [Ne, generation?_eq_none, ← entryAt?_eq_none, entry]
      simp
    obtain ⟨g, at_i⟩ := Option.ne_none_iff_exists'.mp some
    have before := d.generation i
    rw [at_i, Option.getD_some] at before
    rw [gen, at_i, used, unused, Option.map_some, Option.getD_some, before]
    exact (UInt32.ofNat_add (freed i) 1).symm

/-- Handles keep their dates while slots recede; handles of roots may be handed out again. -/
theorem recede (d : Dated a issued freed) (r : Recedes a b)
    (small : ∀ i, countFreed freed a b i < UInt32.size)
    (roots : ∀ h ∈ more, b.inUse h.index = true ∧ b.handleOf h.index = h) :
    Dated b (issued ++ more) (countFreed freed a b) where
  generation := d.generation_countFreed r
  inside := by
    intro h mem
    rcases List.mem_append.mp mem with old | new
    · rcases r h.index with ⟨gen, _⟩ | ⟨gen, _⟩ <;> rw [gen]
      · exact d.inside h old
      · simpa using d.inside h old
    · obtain ⟨e, entry, _⟩ := inUse_eq_true.mp (roots h new).1
      rw [Ne, generation?_eq_none, ← entryAt?_eq_none, entry]
      simp
  reached := by
    intro h mem
    rcases List.mem_append.mp mem with old | new
    · exact Nat.le_trans (d.reached h old) (Nat.le_add_right _ _)
    · rw [← (roots h new).2, handleOf_eq, d.generation_countFreed r]
      exact Nat.le_of_eq (UInt32.toNat_ofNat_of_lt' (small _))
  passed := by
    intro h mem unused
    rcases List.mem_append.mp mem with old | new
    · have reached := d.reached h old
      rcases r h.index with ⟨_, use⟩ | ⟨_, used, _⟩
      · exact Nat.lt_of_lt_of_le (d.passed h old (use ▸ unused)) (Nat.le_add_right _ _)
      · simp only [countFreed, used, unused, Bool.not_false, Bool.and_self, if_true]
        omega
    · rw [(roots h new).1] at unused
      cases unused

section Opened
variable {index : Nat} {owner : ValueId} (dated : Dated a issued freed) (o : Opened a b index owner)
include o

theorem countFreed_opened : countFreed freed a b = freed := by
  funext i
  by_cases here : i = index
  · subst here
    have used : b.inUse i = true := inUse_eq_true.mpr ⟨_, o.here, by simp⟩
    simp [countFreed, used]
  · have same : b.inUse i = a.inUse i := by simp only [inUse, o.elsewhere here]
    rw [countFreed, same]
    cases a.inUse i <;> rfl

include dated

theorem generation_opened (i : Nat) : (b.generation? i).getD 0 = UInt32.ofNat (freed i) := by
  by_cases here : i = index
  · subst here
    rw [o.generation_here, Option.getD_some, dated.generation]
  · rw [o.generation here, dated.generation]

theorem fresh (small : freed index < UInt32.size) : b.handleOf index ∉ issued := by
  intro old
  have unused : a.inUse index = false := inUse_eq_false.mpr o.unused
  have passed := dated.passed _ old unused
  rw [handleOf_eq, dated.generation_opened o, UInt32.toNat_ofNat_of_lt' small] at passed
  exact Nat.lt_irrefl _ passed

theorem grow (small : freed index < UInt32.size) :
    Dated b (issued ++ [b.handleOf index]) (countFreed freed a b) := by
  rw [countFreed_opened o]
  have used : b.inUse index = true := inUse_eq_true.mpr ⟨_, o.here, by simp⟩
  have elsewhere : ∀ h ∈ issued, h.index ≠ index → b.inUse h.index = a.inUse h.index := by
    intro h _ ne
    simp only [inUse, o.elsewhere ne]
  exact {
    generation := dated.generation_opened o
    inside := by
      intro h mem
      by_cases here : h.index = index
      · rw [here, o.generation_here]
        simp
      · rcases List.mem_append.mp mem with old | new
        · rw [o.generation here]
          exact dated.inside h old
        · rw [List.mem_singleton.mp new] at here
          exact absurd rfl here
    reached := by
      intro h mem
      rcases List.mem_append.mp mem with old | new
      · exact dated.reached h old
      · rw [List.mem_singleton.mp new, handleOf_eq, dated.generation_opened o]
        exact Nat.le_of_eq (UInt32.toNat_ofNat_of_lt' small)
    passed := by
      intro h mem unused
      have here : h.index ≠ index := by
        intro same
        rw [same, used] at unused
        cases unused
      rcases List.mem_append.mp mem with old | new
      · exact dated.passed h old (elsewhere h old here ▸ unused)
      · rw [List.mem_singleton.mp new] at here
        exact absurd rfl here }

end Opened
end Dated
end LazyCast.Arena
