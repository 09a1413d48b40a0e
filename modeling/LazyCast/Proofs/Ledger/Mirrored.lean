import LazyCast.Proofs.Ledger.Handles
import LazyCast.Proofs.Orchestrator.Renamed
/-!
Two accounts of ledgers with like groups behind some pairs of handles: the same instructions under
other qubit numbers, the same owners under other value numbers, and the same handles together. Which
slots the ledgers are in and what other groups there are does not count. Whatever is done to a group
of one account through a handle can be done to the like group of the other.
-/
namespace LazyCast
variable {f : Qubit → Qubit} {γ : ValueId → ValueId}

namespace OrderedSet
variable {s t : OrderedSet ValueId}

def renumber (γ : ValueId → ValueId) (s : OrderedSet ValueId) : OrderedSet ValueId :=
  ⟨s.elems.map γ⟩

variable (rising : StrictMono γ)
include rising

theorem insert_renumber (s : OrderedSet ValueId) (x : ValueId) :
    (s.renumber γ).insert (γ x) = (s.insert x).renumber γ :=
  congrArg OrderedSet.mk (insertElem_map (rising.strictMonoOn Set.univ) (Set.mem_univ x)
    fun y _ => Set.mem_univ y)

theorem union_renumber (s t : OrderedSet ValueId) :
    (s.renumber γ).union (t.renumber γ) = (s.union t).renumber γ := by
  obtain ⟨xs⟩ := t
  unfold union
  change (xs.map γ).foldl insert (s.renumber γ) = (xs.foldl insert s).renumber γ
  induction xs generalizing s with
  | nil => rfl
  | cons x xs ih => rw [List.map_cons, List.foldl_cons, List.foldl_cons, insert_renumber rising, ih]

theorem erase_renumber (s : OrderedSet ValueId) (x : ValueId) :
    (s.renumber γ).erase (γ x) = (s.erase x).renumber γ := by
  have kept : (s.elems.map γ).filter (fun y => !decide (y = γ x)) =
      (s.elems.filter fun y => !decide (y = x)).map γ := by
    rw [List.filter_map]
    congr 2
    funext y
    exact congrArg not (decide_eq_decide.mpr rising.injective.eq_iff)
  exact congrArg OrderedSet.mk kept

omit rising in
theorem isEmpty_renumber (s : OrderedSet ValueId) : (s.renumber γ).isEmpty = s.isEmpty :=
  List.isEmpty_map

end OrderedSet

theorem renumber_rename (is : List Instruction) :
    renumber (is.map (Instruction.rename f)) = (renumber is).map (Instruction.rename f) := by
  induction is using List.reverseRecOn with
  | nil => rfl
  | append_singleton is i ih =>
    rw [List.map_append, List.map_singleton, renumber_concat, renumber_concat, ih, List.map_append,
      List.length_map]
    rfl

theorem kindsOf_rename (is : List Instruction) :
    kindsOf (is.map (Instruction.rename f)) = kindsOf is := by
  unfold kindsOf
  rw [List.map_map]
  rfl

namespace Group
variable {g g' l l' : Group}

structure Mirrors (f : Qubit → Qubit) (γ : ValueId → ValueId) (g g' : Group) : Prop where
  instructions : g'.instructions = g.instructions.map (Instruction.rename f)
  owners : g'.owners = g.owners.renumber γ

theorem Mirrors.push (mirrors : Mirrors f γ g g') (i : Instruction) :
    Mirrors f γ (g.push i) (g'.push (i.rename f)) := by
  refine ⟨?_, mirrors.owners⟩
  unfold Group.push
  dsimp only
  rw [mirrors.instructions, List.map_append, List.length_map]
  rfl

theorem Mirrors.join (rising : StrictMono γ) (first : Mirrors f γ g g')
    (second : Mirrors f γ l l') : Mirrors f γ (g.join l) (g'.join l') := by
  unfold Group.join
  constructor
  · dsimp only
    rw [first.instructions, second.instructions, ← List.map_append, renumber_rename]
  · dsimp only
    rw [first.owners, second.owners, OrderedSet.union_renumber rising]

theorem Mirrors.frozen (mirrors : Mirrors f γ g g') : g.frozen.Renamed f g'.frozen := by
  refine ⟨mirrors.instructions, ?_⟩
  unfold Group.frozen
  dsimp only
  rw [mirrors.instructions, kindsOf_rename]

end Group

namespace Groups
variable {gs gs' ks ks' : Groups} {pairs : List (Handle × Handle)} {g g' l l' k k' : Group}

/-- The handles of each pair lead to like groups, if to any; and two pairs share a group in both
    accounts or in none. -/
structure Mirrored (f : Qubit → Qubit) (γ : ValueId → ValueId) (pairs : List (Handle × Handle))
    (gs gs' : Groups) : Prop where
  like : ∀ p ∈ pairs, Option.Rel (Group.Mirrors f γ) (gs.groupOf? p.1) (gs'.groupOf? p.2)
  sharing : ∀ p ∈ pairs, ∀ q ∈ pairs, ∀ g g' l l', gs.groupOf? p.1 = some g →
    gs'.groupOf? p.2 = some g' → gs.groupOf? q.1 = some l → gs'.groupOf? q.2 = some l' →
      (g.lead = l.lead ↔ g'.lead = l'.lead)

theorem Mirrored.mono {fewer : List (Handle × Handle)} (m : Mirrored f γ pairs gs gs')
    (within : ∀ p ∈ fewer, p ∈ pairs) : Mirrored f γ fewer gs gs' :=
  ⟨fun p mem => m.like p (within p mem),
    fun p memp q memq => m.sharing p (within p memp) q (within q memq)⟩

theorem Mirrored.cases (m : Mirrored f γ pairs gs gs') {p : Handle × Handle} (mem : p ∈ pairs) :
    (gs.groupOf? p.1 = none ∧ gs'.groupOf? p.2 = none) ∨
      ∃ g g', gs.groupOf? p.1 = some g ∧ gs'.groupOf? p.2 = some g' ∧ g.Mirrors f γ g' := by
  have like := m.like p mem
  generalize gs.groupOf? p.1 = x at like ⊢
  generalize gs'.groupOf? p.2 = x' at like ⊢
  cases like with
  | none => exact Or.inl ⟨rfl, rfl⟩
  | @some g g' mirrors => exact Or.inr ⟨g, g', rfl, rfl, mirrors⟩

/-- It is enough to say what becomes of each group in both accounts. -/
theorem Mirrored.follow (m : Mirrored f γ pairs gs gs') (φ φ' : Group → Option Group)
    (left : ∀ h, ks.groupOf? h = (gs.groupOf? h).bind φ)
    (right : ∀ h, ks'.groupOf? h = (gs'.groupOf? h).bind φ')
    (like : ∀ p ∈ pairs, ∀ g g', gs.groupOf? p.1 = some g → gs'.groupOf? p.2 = some g' →
      g.Mirrors f γ g' → Option.Rel (Group.Mirrors f γ) (φ g) (φ' g'))
    (sharing : ∀ p ∈ pairs, ∀ q ∈ pairs, ∀ g g' l l', gs.groupOf? p.1 = some g →
      gs'.groupOf? p.2 = some g' → gs.groupOf? q.1 = some l → gs'.groupOf? q.2 = some l' →
        ∀ k k' n n', φ g = some k → φ' g' = some k' → φ l = some n → φ' l' = some n' →
          (k.lead = n.lead ↔ k'.lead = n'.lead)) : Mirrored f γ pairs ks ks' := by
  constructor
  · intro p mem
    rw [left, right]
    rcases m.cases mem with ⟨none, none'⟩ | ⟨g, g', found, found', mirrors⟩
    · rw [none, none']
      exact .none
    · rw [found, found']
      exact like p mem g g' found found' mirrors
  · intro p memp q memq k k' n n' foundk foundk' foundn foundn'
    rw [left, Option.bind_eq_some_iff] at foundk foundn
    rw [right, Option.bind_eq_some_iff] at foundk' foundn'
    obtain ⟨g, foundg, madek⟩ := foundk
    obtain ⟨g', foundg', madek'⟩ := foundk'
    obtain ⟨l, foundl, maden⟩ := foundn
    obtain ⟨l', foundl', maden'⟩ := foundn'
    exact sharing p memp q memq g g' l l' foundg foundg' foundl foundl' k k' n n' madek madek'
      maden maden'

section Pair
variable (m : Mirrored f γ pairs gs gs') (apart : gs.Apart) (apart' : gs'.Apart)
  {p : Handle × Handle} (mem : p ∈ pairs) (found : gs.groupOf? p.1 = some g)
  (found' : gs'.groupOf? p.2 = some g')
include m apart apart' mem found found'

theorem Mirrored.put (lead : k.lead = g.lead) (lead' : k'.lead = g'.lead)
    (handles : k.handles = g.handles) (handles' : k'.handles = g'.handles)
    (mirrors : k.Mirrors f γ k') : Mirrored f γ pairs (gs.put k) (gs'.put k') := by
  have keeps : ∀ {k g l n : Group}, k.lead = g.lead →
      some (if l.lead = g.lead then k else l) = some n → n.lead = l.lead := by
    intro k g l n lead made
    cases made
    split
    · rename_i same
      rw [lead, same]
    · rfl
  apply m.follow (fun l => some (if l.lead = g.lead then k else l))
    (fun l => some (if l.lead = g'.lead then k' else l))
  · intro h
    rw [apart.groupOf?_put (groupOf?_spec found).1 lead handles, Option.map_eq_bind]
    rfl
  · intro h
    rw [apart'.groupOf?_put (groupOf?_spec found').1 lead' handles', Option.map_eq_bind]
    rfl
  · intro q memq l l' foundl foundl' like
    have same := m.sharing q memq p mem l l' g g' foundl foundl' found found'
    by_cases here : l.lead = g.lead
    · rw [if_pos here, if_pos (same.mp here)]
      exact .some mirrors
    · rw [if_neg here, if_neg fun there => here (same.mpr there)]
      exact .some like
  · intro q memq r memr l l' n n' foundl foundl' foundn foundn' a a' b b' ma ma' mb mb'
    rw [keeps lead ma, keeps lead' ma', keeps lead mb, keeps lead' mb']
    exact m.sharing q memq r memr l l' n n' foundl foundl' foundn foundn'

theorem Mirrored.dissolve : Mirrored f γ pairs (gs.dissolve g) (gs'.dissolve g') := by
  have keeps : ∀ {g l n : Group}, (if l.lead ≠ g.lead then some l else none) = some n → n = l := by
    intro g l n made
    split at made
    · exact (Option.some.inj made).symm
    · cases made
  have filters : ∀ (x : Option Group) (g : Group),
      (x.filter fun l => decide (l.lead ≠ g.lead)) =
        x.bind fun l => if l.lead ≠ g.lead then some l else none := by
    intro x g
    cases x with
    | none => rfl
    | some l => by_cases here : l.lead = g.lead <;> simp [here]
  apply m.follow (fun l => if l.lead ≠ g.lead then some l else none)
    (fun l => if l.lead ≠ g'.lead then some l else none)
  · intro h
    rw [apart.groupOf?_dissolve, filters]
  · intro h
    rw [apart'.groupOf?_dissolve, filters]
  · intro q memq l l' foundl foundl' like
    have same := m.sharing q memq p mem l l' g g' foundl foundl' found found'
    by_cases here : l.lead = g.lead
    · rw [if_neg (not_not_intro here), if_neg (not_not_intro (same.mp here))]
      exact .none
    · rw [if_pos here, if_pos fun there => here (same.mpr there)]
      exact .some like
  · intro q memq r memr l l' n n' foundl foundl' foundn foundn' a a' b b' ma ma' mb mb'
    rw [keeps ma, keeps ma', keeps mb, keeps mb']
    exact m.sharing q memq r memr l l' n n' foundl foundl' foundn foundn'

theorem Mirrored.lead : Mirrored f γ ((g.lead, g'.lead) :: pairs) gs gs' := by
  have named : gs.groupOf? g.lead = some g :=
    apart.groupOf?_of_mem (groupOf?_spec found).1 (apart.lead_mem g (groupOf?_spec found).1)
  have named' : gs'.groupOf? g'.lead = some g' :=
    apart'.groupOf?_of_mem (groupOf?_spec found').1 (apart'.lead_mem g' (groupOf?_spec found').1)
  -- Each new pair leads where an old one does.
  have old : ∀ q ∈ (g.lead, g'.lead) :: pairs, ∃ r ∈ pairs,
      gs.groupOf? q.1 = gs.groupOf? r.1 ∧ gs'.groupOf? q.2 = gs'.groupOf? r.2 := by
    intro q memq
    rcases List.mem_cons.mp memq with rfl | memq
    · exact ⟨p, mem, named.trans found.symm, named'.trans found'.symm⟩
    · exact ⟨q, memq, rfl, rfl⟩
  constructor
  · intro q memq
    obtain ⟨r, memr, same, same'⟩ := old q memq
    rw [same, same']
    exact m.like r memr
  · intro q memq r memr
    obtain ⟨a, mema, same, same'⟩ := old q memq
    obtain ⟨b, memb, again, again'⟩ := old r memr
    rw [same, same', again, again']
    exact m.sharing a mema b memb

variable {q : Handle × Handle} (memq : q ∈ pairs) (foundl : gs.groupOf? q.1 = some l)
  (foundl' : gs'.groupOf? q.2 = some l')
include memq foundl foundl'

theorem Mirrored.merged (rising : StrictMono γ) (ne : g.lead ≠ l.lead) (ne' : g'.lead ≠ l'.lead)
    (mirrors : g.Mirrors f γ g') (mirrors' : l.Mirrors f γ l') :
    Mirrored f γ pairs (gs.merged g l) (gs'.merged g' l') := by
  have memg := (groupOf?_spec found).1
  have memg' := (groupOf?_spec found').1
  have meml := (groupOf?_spec foundl).1
  have meml' := (groupOf?_spec foundl').1
  have taken : ∀ r ∈ pairs, ∀ k k', gs.groupOf? r.1 = some k → gs'.groupOf? r.2 = some k' →
      ((k.lead = g.lead ∨ k.lead = l.lead) ↔ (k'.lead = g'.lead ∨ k'.lead = l'.lead)) :=
    fun r memr k k' foundk foundk' => or_congr
      (m.sharing r memr p mem k k' g g' foundk foundk' found found')
      (m.sharing r memr q memq k k' l l' foundk foundk' foundl foundl')
  apply m.follow (fun k => some (afterMerge g l k)) (fun k => some (afterMerge g' l' k))
  · intro h
    rw [groupOf?_merged apart memg meml ne, Option.map_eq_bind]
    rfl
  · intro h
    rw [groupOf?_merged apart' memg' meml' ne', Option.map_eq_bind]
    rfl
  · intro r memr k k' foundk foundk' like
    have both := taken r memr k k' foundk foundk'
    unfold afterMerge
    by_cases here : k.lead = g.lead ∨ k.lead = l.lead
    · rw [if_pos here, if_pos (both.mp here)]
      exact .some (mirrors.join rising mirrors')
    · rw [if_neg here, if_neg fun there => here (both.mpr there)]
      exact .some like
  · intro r memr t memt k k' n n' foundk foundk' foundn foundn' a a' b b' ma ma' mb mb'
    cases ma
    cases ma'
    cases mb
    cases mb'
    have bothk := taken r memr k k' foundk foundk'
    have bothn := taken t memt n n' foundn foundn'
    have withk := m.sharing r memr p mem k k' g g' foundk foundk' found found'
    have withn := m.sharing t memt p mem n n' g g' foundn foundn' found found'
    have each := m.sharing r memr t memt k k' n n' foundk foundk' foundn foundn'
    have joined : (g.join l).lead = g.lead := rfl
    have joined' : (g'.join l').lead = g'.lead := rfl
    unfold afterMerge
    by_cases herek : k.lead = g.lead ∨ k.lead = l.lead <;>
      by_cases heren : n.lead = g.lead ∨ n.lead = l.lead
    · rw [if_pos herek, if_pos heren, if_pos (bothk.mp herek), if_pos (bothn.mp heren)]
      exact iff_of_true rfl rfl
    · rw [if_pos herek, if_neg heren, if_pos (bothk.mp herek),
        if_neg fun there => heren (bothn.mpr there), joined, joined']
      exact ⟨fun same => (withn.mp same.symm).symm, fun same => (withn.mpr same.symm).symm⟩
    · rw [if_neg herek, if_pos heren, if_neg fun there => herek (bothk.mpr there),
        if_pos (bothn.mp heren), joined, joined']
      exact withk
    · rw [if_neg herek, if_neg heren, if_neg fun there => herek (bothk.mpr there),
        if_neg fun there => heren (bothn.mpr there)]
      exact each

end Pair

section Pooling
variable (rising : StrictMono γ)
include rising

theorem Mirrored.merge (m : Mirrored f γ pairs gs gs') (apart : gs.Apart) (apart' : gs'.Apart)
    (allOpen : gs.AllOpen) (allOpen' : gs'.AllOpen) {p q : Handle × Handle} (memp : p ∈ pairs)
    (memq : q ∈ pairs) :
    Mirrored f γ pairs (gs.merge p.1 q.1).2 (gs'.merge p.2 q.2).2 ∧
      (((∃ e, (gs.merge p.1 q.1).1 = .error e) ∧ ∃ e, (gs'.merge p.2 q.2).1 = .error e) ∨
        ∃ h h', (gs.merge p.1 q.1).1 = .ok h ∧ (gs'.merge p.2 q.2).1 = .ok h' ∧
          Mirrored f γ ((h, h') :: pairs) (gs.merge p.1 q.1).2 (gs'.merge p.2 q.2).2) := by
  unfold Groups.merge
  rw [allOpen.open?_eq, allOpen.open?_eq, allOpen'.open?_eq, allOpen'.open?_eq]
  rcases m.cases memp with ⟨none, none'⟩ | ⟨g, g', found, found', mirrors⟩
  · rw [none, none']
    exact ⟨m, Or.inl ⟨⟨_, rfl⟩, _, rfl⟩⟩
  · rw [found, found']
    rcases m.cases memq with ⟨none, none'⟩ | ⟨l, l', foundl, foundl', mirrors'⟩
    · rw [none, none']
      exact ⟨m, Or.inl ⟨⟨_, rfl⟩, _, rfl⟩⟩
    · rw [foundl, foundl']
      have same := m.sharing p memp q memq g g' l l' found found' foundl foundl'
      dsimp only
      by_cases here : g.lead = l.lead
      · rw [if_pos here, if_pos (same.mp here)]
        exact ⟨m, Or.inr ⟨_, _, rfl, rfl, m.lead apart apart' memp found found'⟩⟩
      · have there : g'.lead ≠ l'.lead := fun there => here (same.mpr there)
        rw [if_neg here, if_neg there]
        have named := m.lead apart apart' memp found found'
        have memp := List.mem_cons_of_mem (g.lead, g'.lead) memp
        have memq := List.mem_cons_of_mem (g.lead, g'.lead) memq
        have merged := named.merged apart apart' memp found found' memq foundl foundl' rising here
          there mirrors mirrors'
        exact ⟨merged.mono fun r mem => List.mem_cons_of_mem _ mem,
          Or.inr ⟨_, _, rfl, rfl, merged⟩⟩

theorem Mirrored.mergeAll (m : Mirrored f γ pairs gs gs') (apart : gs.Apart)
    (apart' : gs'.Apart) (allOpen : gs.AllOpen) (allOpen' : gs'.AllOpen) {p : Handle × Handle}
    (memp : p ∈ pairs) {rest : List (Handle × Handle)} (within : ∀ q ∈ rest, q ∈ pairs) :
    Mirrored f γ pairs (gs.mergeAll p.1 (rest.map Prod.fst)).2
      (gs'.mergeAll p.2 (rest.map Prod.snd)).2 := by
  induction rest generalizing gs gs' pairs p with
  | nil => exact m
  | cons q rest ih =>
    obtain ⟨memq, within⟩ := List.forall_mem_cons.mp within
    obtain ⟨merged, answers⟩ := m.merge rising apart apart' allOpen allOpen' memp memq
    have apartMerged : (gs.merge p.1 q.1).2.Apart := apart.merge p.1 q.1
    have apartMerged' : (gs'.merge p.2 q.2).2.Apart := apart'.merge p.2 q.2
    have openMerged := allOpen.merge p.1 q.1
    have openMerged' := allOpen'.merge p.2 q.2
    rw [List.map_cons, List.map_cons, Groups.mergeAll, Groups.mergeAll]
    rcases made : gs.merge p.1 q.1 with ⟨answer, ks⟩
    rcases made' : gs'.merge p.2 q.2 with ⟨answer', ks'⟩
    rw [made, made'] at merged answers
    rw [made] at apartMerged openMerged
    rw [made'] at apartMerged' openMerged'
    rcases answers with ⟨⟨e, failed⟩, e', failed'⟩ | ⟨h, h', answered, answered', named⟩
    · dsimp only at failed failed'
      rw [failed, failed']
      exact merged
    · dsimp only at answered answered'
      rw [answered, answered', Outcome.andThen_ok, Outcome.andThen_ok]
      have all := ih (p := (h, h')) named apartMerged apartMerged' openMerged openMerged'
        List.mem_cons_self fun r mem => List.mem_cons_of_mem _ (within r mem)
      exact all.mono fun r mem => List.mem_cons_of_mem _ mem

theorem Mirrored.interact (m : Mirrored f γ pairs gs gs') (apart : gs.Apart) (apart' : gs'.Apart)
    (allOpen : gs.AllOpen) (allOpen' : gs'.AllOpen) {values : List (Handle × Handle)}
    (within : ∀ q ∈ values, q ∈ pairs) (independent : Bool) :
    Mirrored f γ pairs (gs.interact (values.map Prod.fst) independent).2
      (gs'.interact (values.map Prod.snd) independent).2 := by
  match values with
  | [] => exact m
  | [p] => exact m
  | p :: q :: rest =>
    obtain ⟨memp, within⟩ := List.forall_mem_cons.mp within
    unfold Groups.interact
    cases independent with
    | true => exact m
    | false => exact m.mergeAll rising apart apart' allOpen allOpen' memp within

end Pooling

theorem Mirrored.dropOwner (rising : StrictMono γ) (m : Mirrored f γ pairs gs gs')
    (apart : gs.Apart) (apart' : gs'.Apart) (allOpen : gs.AllOpen) (allOpen' : gs'.AllOpen)
    {p : Handle × Handle} (mem : p ∈ pairs) (owner : ValueId) :
    Mirrored f γ pairs (gs.dropOwner p.1 owner).2 (gs'.dropOwner p.2 (γ owner)).2 := by
  unfold Groups.dropOwner
  rw [allOpen.open?_eq, allOpen'.open?_eq]
  rcases m.cases mem with ⟨none, none'⟩ | ⟨g, g', found, found', mirrors⟩
  · rw [none, none']
    exact m
  · rw [found, found']
    dsimp only
    rw [mirrors.owners, OrderedSet.erase_renumber rising, OrderedSet.isEmpty_renumber]
    split
    · exact m.dissolve apart apart' mem found found'
    · exact m.put apart apart' mem found found' rfl rfl rfl rfl ⟨mirrors.instructions, rfl⟩

end Groups

namespace Arena
variable {a b : Arena} {pairs : List (Handle × Handle)}

theorem Tidy.ne_created (t : a.Tidy) (owner : ValueId) {h : Handle} {g : Group}
    (found : a.groups.groupOf? h = some g) : h ≠ (a.create owner).1 := by
  intro same
  obtain ⟨mem, inside⟩ := Groups.groupOf?_spec found
  have apart := (create_matches t owner).tidy.apart
  have one := apart.disjoint g ((t.mem_create owner).mpr (Or.inr mem)) _
    ((t.mem_create owner).mpr (Or.inl rfl)) h inside (List.mem_singleton.mpr same)
  exact t.lead_ne_created owner mem (congrArg (fun g : Group => g.lead.index) one)

theorem Tidy.groupOf?_created (t : a.Tidy) (owner : ValueId) :
    (a.create owner).2.groups.groupOf? (a.create owner).1 =
      some ⟨(a.create owner).1, [(a.create owner).1], [], OrderedSet.empty.insert owner,
        .accumulating⟩ :=
  (create_matches t owner).tidy.apart.groupOf?_of_mem ((t.mem_create owner).mpr (Or.inl rfl))
    List.mem_cons_self

theorem Tidy.mirrored_create (t : a.Tidy) (t' : b.Tidy)
    (m : Groups.Mirrored f γ pairs a.groups b.groups)
    (opened : ∀ p ∈ pairs, a.groups.groupOf? p.1 ≠ none) (owner : ValueId) :
    Groups.Mirrored f γ (((a.create owner).1, (b.create (γ owner)).1) :: pairs)
      (a.create owner).2.groups (b.create (γ owner)).2.groups := by
  have new := t.groupOf?_created owner
  have new' := t'.groupOf?_created (γ owner)
  have old : ∀ p ∈ pairs, ∃ g g', a.groups.groupOf? p.1 = some g ∧
      b.groups.groupOf? p.2 = some g' ∧
      (a.create owner).2.groups.groupOf? p.1 = some g ∧
      (b.create (γ owner)).2.groups.groupOf? p.2 = some g' ∧ g.Mirrors f γ g' := by
    intro p mem
    rcases m.cases mem with ⟨none, _⟩ | ⟨g, g', found, found', mirrors⟩
    · exact absurd none (opened p mem)
    · refine ⟨g, g', found, found', ?_, ?_, mirrors⟩
      · rw [t.groupOf?_create owner (t.ne_created owner found), found]
      · rw [t'.groupOf?_create (γ owner) (t'.ne_created (γ owner) found'), found']
  have named : ∀ {p g g'}, p ∈ pairs → (a.create owner).2.groups.groupOf? p.1 = some g →
      (b.create (γ owner)).2.groups.groupOf? p.2 = some g' →
        g.lead ≠ (a.create owner).1 ∧ g'.lead ≠ (b.create (γ owner)).1 := by
    intro p g g' mem found found'
    obtain ⟨k, k', before, before', after, after', _⟩ := old p mem
    cases found.symm.trans after
    cases found'.symm.trans after'
    have apart := t.lead_ne_created owner (Groups.groupOf?_spec before).1
    have apart' := t'.lead_ne_created (γ owner) (Groups.groupOf?_spec before').1
    exact ⟨fun same => apart (congrArg Handle.index same),
      fun same => apart' (congrArg Handle.index same)⟩
  constructor
  · intro p mem
    rcases List.mem_cons.mp mem with rfl | mem
    · rw [new, new']
      exact .some ⟨rfl, rfl⟩
    · obtain ⟨g, g', _, _, found, found', mirrors⟩ := old p mem
      rw [found, found']
      exact .some mirrors
  · intro p memp q memq g g' l l' foundg foundg' foundl foundl'
    rcases List.mem_cons.mp memp with rfl | memp <;> rcases List.mem_cons.mp memq with rfl | memq
    · cases foundg.symm.trans foundl
      cases foundg'.symm.trans foundl'
      exact iff_of_true rfl rfl
    · obtain ⟨ne, ne'⟩ := named memq foundl foundl'
      cases foundg.symm.trans new
      cases foundg'.symm.trans new'
      exact iff_of_false ne.symm ne'.symm
    · obtain ⟨ne, ne'⟩ := named memp foundg foundg'
      cases foundl.symm.trans new
      cases foundl'.symm.trans new'
      exact iff_of_false ne ne'
    · obtain ⟨k, k', before, before', after, after', _⟩ := old p memp
      obtain ⟨n, n', earlier, earlier', later, later', _⟩ := old q memq
      cases foundg.symm.trans after
      cases foundg'.symm.trans after'
      cases foundl.symm.trans later
      cases foundl'.symm.trans later'
      exact m.sharing p memp q memq _ _ _ _ before before' earlier earlier'

end Arena
end LazyCast
