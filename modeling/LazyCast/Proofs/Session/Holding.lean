import LazyCast.Proofs.Ledger.Leading
import LazyCast.Session.Casting
/-!
Which groups hold the member casts of which tickets, and how this survives what is done to groups:
a ticket stays in the group of every handle that led to it, until that group is dissolved.
-/
namespace LazyCast

def Group.tickets (g : Group) : List Nat := g.instructions.filterMap Session.ticketOf?

theorem Group.tickets_push (g : Group) (i : Instruction) :
    (g.push i).tickets = g.tickets ++ (Session.ticketOf? i).toList := by
  have same : Session.ticketOf? { i with seq := g.instructions.length } = Session.ticketOf? i := rfl
  rw [tickets, push, List.filterMap_append, List.filterMap_cons, List.filterMap_nil, same]
  cases Session.ticketOf? i <;> rfl

theorem tickets_renumber (is : List Instruction) :
    (renumber is).filterMap Session.ticketOf? = is.filterMap Session.ticketOf? := by
  induction is using List.reverseRecOn with
  | nil => rfl
  | append_singleton is i ih =>
    have same : Session.ticketOf? { i with seq := is.length } = Session.ticketOf? i := rfl
    rw [renumber_concat, List.filterMap_append, List.filterMap_append, ih, List.filterMap_cons,
      List.filterMap_cons, same]

theorem Group.tickets_join (g l : Group) : (g.join l).tickets = g.tickets ++ l.tickets := by
  rw [tickets, join, tickets_renumber, List.filterMap_append]
  rfl

namespace Groups
variable {gs after : Groups} {g k l : Group} {h : Handle} {t : Nat}

structure Ticketed (gs : Groups) : Prop where
  nodup : ∀ g ∈ gs, g.tickets.Nodup
  apart : ∀ g ∈ gs, ∀ k ∈ gs, ∀ t, t ∈ g.tickets → t ∈ k.tickets → g = k

/-- Whatever a handle led to it still leads to, and no ticket is held anew but some extra ones. -/
structure Carries (extra : List Nat) (gs after : Groups) : Prop where
  ticketed : gs.Ticketed → extra.Nodup → (∀ t ∈ extra, ∀ g ∈ gs, t ∉ g.tickets) → after.Ticketed
  /-- A ticket is held where it was held before, by a group that keeps all its handles. -/
  tracked : ∀ k ∈ after, ∀ t ∈ k.tickets,
    t ∈ extra ∨ ∃ g ∈ gs, t ∈ g.tickets ∧ ∀ h ∈ g.handles, h ∈ k.handles
  kept : ∀ h g, gs.groupOf? h = some g →
    ∃ k, after.groupOf? h = some k ∧ ∀ t ∈ g.tickets, t ∈ k.tickets

theorem Carries.origin {extra : List Nat} (carries : Carries extra gs after) :
    ∀ k ∈ after, ∀ t ∈ k.tickets, t ∈ extra ∨ ∃ g ∈ gs, t ∈ g.tickets := fun k mem t inside =>
  (carries.tracked k mem t inside).imp_right fun ⟨g, memg, ing, _⟩ => ⟨g, memg, ing⟩

theorem Carries.refl (extra : List Nat) (gs : Groups) : Carries extra gs gs :=
  ⟨fun ticketed _ _ => ticketed,
    fun k mem _ inside => Or.inr ⟨k, mem, inside, fun _ here => here⟩,
    fun _ g found => ⟨g, found, fun _ inside => inside⟩⟩

theorem Carries.trans {extra : List Nat} {last : Groups} (first : Carries [] gs after)
    (second : Carries extra after last) : Carries extra gs last := by
  have none : ∀ t ∈ ([] : List Nat), ∀ g ∈ gs, t ∉ g.tickets := by simp
  have origin : ∀ k ∈ after, ∀ t ∈ k.tickets, ∃ g ∈ gs, t ∈ g.tickets := fun k mem t inside =>
    (first.origin k mem t inside).resolve_left (by simp)
  refine ⟨fun ticketed nodup fresh => ?_, fun k mem t inside => ?_, fun h g found => ?_⟩
  · refine second.ticketed (first.ticketed ticketed List.nodup_nil none) nodup ?_
    intro t extra k mem inside
    obtain ⟨g, memg, ing⟩ := origin k mem t inside
    exact fresh t extra g memg ing
  · refine (second.tracked k mem t inside).imp_right fun ⟨l, meml, inl, within⟩ => ?_
    obtain ⟨g, memg, ing, within'⟩ := (first.tracked l meml t inl).resolve_left (by simp)
    exact ⟨g, memg, ing, fun h here => within h (within' h here)⟩
  · obtain ⟨k, found, carried⟩ := first.kept h g found
    obtain ⟨l, found, carried'⟩ := second.kept h k found
    exact ⟨l, found, fun t inside => carried' t (carried t inside)⟩

theorem carries_put (apart : gs.Apart) (mem : g ∈ gs) (lead : k.lead = g.lead)
    (handles : k.handles = g.handles) {extra : List Nat} (tickets : k.tickets = g.tickets ++ extra) :
    Carries extra gs (gs.put k) := by
  have cases : ∀ {l}, l ∈ gs.put k → l = k ∨ l ∈ gs ∧ l ≠ g := by
    intro l meml
    refine (mem_put_cases meml).imp_right fun ⟨meml, ne⟩ => ⟨meml, fun same => ne ?_⟩
    rw [same, lead]
  refine ⟨fun ticketed nodup fresh => ⟨fun l meml => ?_, fun l meml m memm t inl inm => ?_⟩,
    fun l meml t inside => ?_, fun h l found => ?_⟩
  · rcases cases meml with rfl | ⟨meml, _⟩
    · rw [tickets]
      exact List.nodup_append.mpr ⟨ticketed.nodup g mem, nodup,
        fun t ing u extra same => fresh u extra g mem (same ▸ ing)⟩
    · exact ticketed.nodup l meml
  · have other : ∀ {m}, m ∈ gs → m ≠ g → t ∈ m.tickets → t ∉ k.tickets := by
      intro m memm ne inm ink
      rw [tickets] at ink
      rcases List.mem_append.mp ink with ing | extra
      · exact ne (ticketed.apart m memm g mem t inm ing)
      · exact fresh t extra m memm inm
    rcases cases meml with rfl | ⟨oldl, nel⟩ <;> rcases cases memm with rfl | ⟨oldm, nem⟩
    · rfl
    · exact absurd inl (other oldm nem inm)
    · exact absurd inm (other oldl nel inl)
    · exact ticketed.apart l oldl m oldm t inl inm
  · rcases cases meml with rfl | ⟨meml, _⟩
    · rw [tickets] at inside
      exact (List.mem_append.mp inside).symm.imp id fun ing =>
        ⟨g, mem, ing, fun h here => handles ▸ here⟩
    · exact Or.inr ⟨l, meml, inside, fun _ here => here⟩
  · rw [apart.groupOf?_put mem lead handles, found, Option.map_some]
    refine ⟨_, rfl, fun t inside => ?_⟩
    split
    · rename_i same
      rw [tickets, ← apart.lead_injective (groupOf?_spec found).1 mem same]
      exact List.mem_append_left extra inside
    · exact inside

theorem carries_push (apart : gs.Apart) (mem : g ∈ gs) (i : Instruction) :
    Carries (Session.ticketOf? i).toList gs (gs.put (g.push i)) :=
  carries_put (k := g.push i) apart mem rfl rfl (g.tickets_push i)

theorem carries_merged (apart : gs.Apart) (memg : g ∈ gs) (meml : l ∈ gs) (ne : g.lead ≠ l.lead) :
    Carries [] gs (gs.merged g l) := by
  have apart' := apart_merged apart memg meml ne
  have joined : g.join l ∈ gs.merged g l := (mem_merged memg ne).mpr (Or.inl rfl)
  have intoJoin : ∀ t, t ∈ (g.join l).tickets ↔ t ∈ g.tickets ∨ t ∈ l.tickets := by
    simp [Group.tickets_join]
  refine ⟨fun ticketed _ _ => ⟨fun k mem => ?_, fun k mem k' mem' t ink ink' => ?_⟩,
    fun k mem t inside => ?_, fun h k found => ?_⟩
  · rcases (mem_merged memg ne).mp mem with rfl | ⟨mem, _, _⟩
    · rw [Group.tickets_join]
      refine List.nodup_append.mpr ⟨ticketed.nodup g memg, ticketed.nodup l meml, ?_⟩
      intro t ing u inl same
      exact ne (congrArg Group.lead (ticketed.apart g memg l meml t ing (same ▸ inl)))
    · exact ticketed.nodup k mem
  · have other : ∀ {k}, k ∈ gs → k.lead ≠ g.lead → k.lead ≠ l.lead → t ∈ k.tickets →
        t ∉ (g.join l).tickets := by
      intro k mem neg nel ink joined
      rcases (intoJoin t).mp joined with ing | inl
      · exact neg (congrArg Group.lead (ticketed.apart k mem g memg t ink ing))
      · exact nel (congrArg Group.lead (ticketed.apart k mem l meml t ink inl))
    rcases (mem_merged memg ne).mp mem with rfl | ⟨mem, neg, nel⟩ <;>
      rcases (mem_merged memg ne).mp mem' with rfl | ⟨mem', neg', nel'⟩
    · rfl
    · exact absurd ink (other mem' neg' nel' ink')
    · exact absurd ink' (other mem neg nel ink)
    · exact ticketed.apart k mem k' mem' t ink ink'
  · rcases (mem_merged memg ne).mp mem with rfl | ⟨mem, _, _⟩
    · rcases (intoJoin t).mp inside with ing | inl
      · exact Or.inr ⟨g, memg, ing, fun h here => List.mem_append_left _ here⟩
      · exact Or.inr ⟨l, meml, inl, fun h here => List.mem_append_right _ here⟩
    · exact Or.inr ⟨k, mem, inside, fun _ here => here⟩
  · obtain ⟨mem, inside⟩ := groupOf?_spec found
    by_cases taken : k = g ∨ k = l
    · refine ⟨g.join l, apart'.groupOf?_of_mem joined ?_, fun t ink => (intoJoin t).mpr ?_⟩
      · rcases taken with same | same <;> rw [same] at inside
        · exact List.mem_append_left _ inside
        · exact List.mem_append_right _ inside
      · rcases taken with same | same <;> rw [same] at ink
        · exact Or.inl ink
        · exact Or.inr ink
    · rw [not_or] at taken
      refine ⟨k, apart'.groupOf?_of_mem ((mem_merged memg ne).mpr (Or.inr ⟨mem, ?_, ?_⟩)) inside,
        fun _ ink => ink⟩
      · exact fun same => taken.1 (apart.lead_injective mem memg same)
      · exact fun same => taken.2 (apart.lead_injective mem meml same)

theorem carries_merge (apart : gs.Apart) (h k : Handle) : Carries [] gs (gs.merge h k).2 := by
  exact merge_keeps (.refl [] gs) fun foundg foundl ne =>
    carries_merged apart (open?_spec foundg).1 (open?_spec foundl).1 ne

theorem carries_create {name : Handle} {owner : ValueId}
    (apart : (gs.create name owner).Apart) : Carries [] gs (gs.create name owner) := by
  have cases : ∀ {k}, k ∈ gs.create name owner → k.tickets = [] ∨ k ∈ gs := by
    intro k mem
    rcases mem_create.mp mem with rfl | mem
    · exact Or.inl rfl
    · exact Or.inr mem
  have old : ∀ {k t}, k ∈ gs.create name owner → t ∈ k.tickets → k ∈ gs := by
    intro k t mem inside
    refine (cases mem).resolve_left fun none => ?_
    rw [none] at inside
    cases inside
  refine ⟨fun ticketed _ _ => ⟨fun k mem => ?_, fun k mem l meml t ink inl => ?_⟩,
    fun k mem t inside => Or.inr ⟨k, old mem inside, inside, fun _ here => here⟩,
    fun h g found => ?_⟩
  · rcases cases mem with none | mem
    · rw [none]
      exact List.nodup_nil
    · exact ticketed.nodup k mem
  · exact ticketed.apart k (old mem ink) l (old meml inl) t ink inl
  · obtain ⟨mem, inside⟩ := groupOf?_spec found
    exact ⟨g, apart.groupOf?_of_mem (mem_create.mpr (Or.inr mem)) inside, fun _ ing => ing⟩

theorem Ticketed.dissolve (ticketed : gs.Ticketed) (g : Group) : (gs.dissolve g).Ticketed :=
  ⟨fun k mem => ticketed.nodup k (mem_dissolve.mp mem).1, fun k memk l meml =>
    ticketed.apart k (mem_dissolve.mp memk).1 l (mem_dissolve.mp meml).1⟩

end Groups
end LazyCast
