import Lintel.Proofs.Yaml.Nodes
import Lintel.Yaml.Value
import Mathlib.Data.List.TakeWhile

/-!
# The objects of plain graphs

A graph is **plain** (`Graph.IsPlain`) if it consists of texts, lists, and mappings whose keys are
different texts. What a node of such a graph becomes is seen from the node alone (`Graph.object`).

The objects are made level by level. While they are, some of those that are queued are filled and
the others wait (`Objects.Stage`). Making an object keeps this as it is (`Objects.Stage.make`), and
filling one moves the border by one place (`Objects.Stage.fill`). No node is queued twice, so the
queue comes to an end, and then every node that has been reached has become what it is to become,
and so has all that it holds (`Objects.ofDocument_plain`).
-/

namespace Lintel

namespace Yaml

/-! ### Plain graphs -/

namespace Graph

variable {g : Graph} {id : NodeId}

def textOf (g : Graph) (id : NodeId) : String :=
  match (g.get id).content with
  | .scalar s => s
  | .list _ | .map _ => ""

def keyOf (g : Graph) (id : NodeId) : Key := ⟨.text (g.textOf id), some id⟩

def object (g : Graph) (id : NodeId) : Object :=
  match (g.get id).content with
  | .scalar _ => .leaf (g.keyOf id)
  | .list xs => .list xs
  | .map es => .map (es.map fun e => (g.keyOf e.1, e.2))

def children (g : Graph) (id : NodeId) : List NodeId :=
  match (g.get id).content with
  | .scalar _ => []
  | .list xs => xs
  | .map es => es.flatMap fun e => [e.1, e.2]

inductive Allows (g : Graph) : Node → Prop
  | text (s : String) : g.Allows (.text s)
  | list {xs : List NodeId} (inside : ∀ x ∈ xs, x < g.next) : g.Allows ⟨.list, .list xs⟩
  | map {es : List (NodeId × NodeId)} (inside : ∀ e ∈ es, e.1 < g.next ∧ e.2 < g.next)
      (keys : ∀ e ∈ es, ∃ s, g.get e.1 = .text s) (nodup : (es.map fun e => g.textOf e.1).Nodup) :
      g.Allows ⟨.map, .map es⟩

/-- A graph of texts, lists and mappings whose keys are different texts. -/
def IsPlain (g : Graph) : Prop := ∀ id < g.next, g.Allows (g.get id)

theorem textOf_text {s : String} (h : g.get id = .text s) : g.textOf id = s := by
  rw [textOf, h]
  rfl

theorem object_text {s : String} (h : g.get id = .text s) :
    g.object id = .leaf ⟨.text s, some id⟩ := by
  rw [object, keyOf, textOf_text h, h]
  rfl

theorem children_text {s : String} (h : g.get id = .text s) : g.children id = [] := by
  rw [children, h]
  rfl

theorem object_list {xs : List NodeId} (h : g.get id = ⟨.list, .list xs⟩) :
    g.object id = .list xs := by
  rw [object, h]

theorem children_list {xs : List NodeId} (h : g.get id = ⟨.list, .list xs⟩) :
    g.children id = xs := by
  rw [children, h]

theorem object_map {es : List (NodeId × NodeId)} (h : g.get id = ⟨.map, .map es⟩) :
    g.object id = .map (es.map fun e => (g.keyOf e.1, e.2)) := by
  rw [object, h]

theorem mem_children_map {es : List (NodeId × NodeId)} (h : g.get id = ⟨.map, .map es⟩)
    {c : NodeId} : c ∈ g.children id ↔ ∃ e ∈ es, c = e.1 ∨ c = e.2 := by
  rw [children, h]
  simp

end Graph

/-! ### Scalars and keys -/

namespace Objects

variable {g : Graph} {o o' : Objects} {id x : NodeId} {place : Nat}

theorem scalarObject_text {s : String} (h : g.get id = .text s) :
    scalarObject g id = .ok (g.object id) := by
  have htext : scalarText g (g.next + 1) id = .ok s := by
    rw [scalarText, h]
    rfl
  rw [scalarObject, htext, Graph.object_text h, h]
  rfl

theorem isSame_keyOf (g : Graph) (a b : NodeId) :
    (g.keyOf a).isSame (g.keyOf b) = (g.textOf a == g.textOf b) := rfl

theorem putEntry_of_notMem {es : List (NodeId × NodeId)} {a v : NodeId}
    (h : g.textOf a ∉ es.map fun e => g.textOf e.1) :
    putEntry (g.keyOf a) v (es.map fun e => (g.keyOf e.1, e.2))
      = (es ++ [(a, v)]).map fun e => (g.keyOf e.1, e.2) := by
  induction es with
  | nil => rfl
  | cons e es ih =>
    rw [List.map_cons, List.mem_cons, not_or] at h
    -- Keys are compared by their texts, and this text is not among them, so the entry goes to the
    -- end.
    have hne : (g.keyOf e.1).isSame (g.keyOf a) = false := by
      rw [isSame_keyOf, beq_eq_false_iff_ne]
      exact Ne.symm h.1
    rw [List.map_cons, putEntry, hne, ih h.2]
    rfl

theorem merge_eq_self {es : List (NodeId × NodeId)} (h : g.get id = ⟨.map, .map es⟩)
    (hkeys : ∀ e ∈ es, ∃ s, g.get e.1 = .text s) : merge g id = .ok g := by
  have htag : ∀ e ∈ es, (g.get e.1).tag = .text := by
    intro e he
    obtain ⟨s, hs⟩ := hkeys e he
    rw [hs]
    rfl
  -- no key asks for a merge, so all entries are passed
  have hpassed : (es.takeWhile fun e => (g.get e.1).tag ≠ .merge) = es := by
    rw [List.takeWhile_eq_self_iff]
    intro e he
    rw [htag e he]
    rfl
  -- Keys that are texts already are left as they are.
  have htexts : ∀ ds : List (NodeId × NodeId), (∀ e ∈ ds, (g.get e.1).tag = .text) →
      textKeys g ds = g := by
    intro ds
    induction ds with
    | nil => exact fun _ => rfl
    | cons e ds ih =>
      intro hds
      rw [textKeys, List.foldl_cons, hds e List.mem_cons_self]
      exact ih fun d hd => hds d (List.mem_cons_of_mem _ hd)
  rw [merge, mergeFrom, entriesOf, h]
  have hend : es[es.length]? = none := List.getElem?_eq_none (Nat.le_refl _)
  simp only [List.drop_zero, hpassed, htexts es htag, Nat.zero_add, hend]
  rfl

/-! ### Stages -/

/-- The node has become something. -/
def Made (o : Objects) (id : NodeId) : Prop := ∃ x, o.get? id = some x

/-- All that was made and queued is still so. -/
structure Grows (o o' : Objects) : Prop where
  made : ∀ id, o.Made id → o'.Made id
  queue : ∀ (i : Nat) (id : NodeId), o.queue[i]? = some id → o'.queue[i]? = some id

theorem Grows.refl (o : Objects) : o.Grows o := ⟨fun _ h => h, fun _ _ h => h⟩

theorem Grows.trans {o'' : Objects} (h : o.Grows o') (h' : o'.Grows o'') : o.Grows o'' :=
  ⟨fun id hid => h'.made id (h.made id hid), fun i id hid => h'.queue i id (h.queue i id hid)⟩

structure Stage (g : Graph) (place : Nat) (o : Objects) : Prop where
  graph : o.graph = g
  size : o.objects.size = g.next
  place_le : place ≤ o.queue.size
  /-- No node is queued twice. -/
  nodup : o.queue.toList.Nodup
  queued : ∀ id ∈ o.queue, o.Made id ∧ ∃ x, waiting? (g.get id).tag = some x
  filled : ∀ i < place, ∀ id, o.queue[i]? = some id →
    o.get? id = some (g.object id) ∧ ∀ c ∈ g.children id, o.Made c
  /-- What is not queued never had to wait. -/
  leaf : ∀ id, o.Made id → id < g.next ∧
    (id ∈ o.queue ∨ o.get? id = some (g.object id) ∧ g.children id = [])

theorem get?_set (h : id < o.objects.size) (y : Object) :
    (o.set id y).get? x = if x = id then some y else o.get? x := by
  unfold get? set
  rw [Array.getD_eq_getD_getElem?, Array.getElem?_setIfInBounds, Array.getD_eq_getD_getElem?]
  -- The slot that was written gives the new object, every other what it held.
  by_cases hx : x = id
  · subst hx
    rw [if_pos rfl, if_pos h, if_pos rfl]
    rfl
  · rw [if_neg (Ne.symm hx), if_neg hx]

theorem Made.set (hx : o.Made x) (h : id < o.objects.size) (y : Object) : (o.set id y).Made x := by
  unfold Made
  rw [get?_set h]
  split
  · exact ⟨y, rfl⟩
  · exact hx

namespace Stage

theorem get?_text (hs : Stage g place o) {s : String} (h : g.get id = .text s) (hid : o.Made id) :
    o.get? id = some (g.object id) := by
  rcases (hs.leaf id hid).2 with hmem | ⟨hget, -⟩
  · obtain ⟨-, y, hy⟩ := hs.queued id hmem
    rw [h] at hy
    cases hy
  · exact hget

/-- A node becomes something. Either it is all that it is to be, or it is queued. -/
theorem insert (hs : Stage g place o) (hlt : id < g.next) (hnone : o.get? id = none) (y : Object)
    {q : Array NodeId} (hnodup : q.toList.Nodup)
    (hqueue : ∀ (i : Nat) (x : NodeId), o.queue[i]? = some x → q[i]? = some x)
    (hwaits : ∀ x ∈ q, x ∈ o.queue ∨ x = id ∧ ∃ z, waiting? (g.get id).tag = some z)
    (hnew : id ∈ q ∨ y = g.object id ∧ g.children id = []) :
    Stage g place { o.set id y with queue := q } ∧ o.Grows { o.set id y with queue := q } ∧
      Made { o.set id y with queue := q } id := by
  let o' : Objects := { o.set id y with queue := q }
  have hsize : id < o.objects.size := hs.size ▸ hlt
  have hget : ∀ x, o'.get? x = if x = id then some y else o.get? x := fun _ => get?_set hsize y
  have hmade : ∀ x, o.Made x → o'.Made x := fun x hx => hx.set hsize y
  -- Only the slot of the new object is written, and nothing was made there before.
  have hkeep : ∀ x, o.Made x → o'.get? x = o.get? x := by
    rintro x ⟨z, hz⟩
    have hne : x ≠ id := by
      rintro rfl
      rw [hnone] at hz
      cases hz
    rw [hget, if_neg hne]
  have hself : o'.Made id := ⟨y, by rw [hget, if_pos rfl]⟩
  have hmem : ∀ x ∈ o.queue, x ∈ q := by
    intro x hx
    obtain ⟨i, hi⟩ := Array.getElem?_of_mem hx
    exact Array.mem_of_getElem? (hqueue i x hi)
  refine ⟨⟨hs.graph, ?_, ?_, hnodup, fun x hx => ?_, fun i hi x hx => ?_, fun x hx => ?_⟩,
    ⟨hmade, hqueue⟩, hself⟩
  · exact (Array.size_setIfInBounds ..).trans hs.size
  · refine Nat.le_trans hs.place_le (Nat.le_of_not_lt fun hless => ?_)
    have hlast := hqueue q.size _ (Array.getElem?_eq_getElem hless)
    rw [Array.getElem?_eq_none (Nat.le_refl _)] at hlast
    cases hlast
  · rcases hwaits x hx with hold | ⟨rfl, hz⟩
    · exact ⟨hmade x (hs.queued x hold).1, (hs.queued x hold).2⟩
    · exact ⟨hself, hz⟩
  · -- the places that are filled were queued before
    have hlt' : i < o.queue.size := Nat.lt_of_lt_of_le hi hs.place_le
    have hold := hqueue i _ (Array.getElem?_eq_getElem hlt')
    rw [hx, ← Array.getElem?_eq_getElem hlt'] at hold
    obtain ⟨hobject, hchildren⟩ := hs.filled i hi x hold.symm
    rw [hkeep x ⟨_, hobject⟩]
    exact ⟨hobject, fun c hc => hmade c (hchildren c hc)⟩
  · by_cases hid : x = id
    · subst hid
      refine ⟨hlt, hnew.imp (fun h => h) fun h => ⟨?_, h.2⟩⟩
      rw [hget, if_pos rfl, h.1]
    · have hold : o.Made x := by
        obtain ⟨z, hz⟩ := hx
        rw [hget, if_neg hid] at hz
        exact ⟨z, hz⟩
      rw [hkeep x hold]
      exact ⟨(hs.leaf x hold).1, (hs.leaf x hold).2.imp (hmem x) fun h => h⟩

/-- **Making an object** of a node of a plain graph. -/
theorem make (hs : Stage g place o) (hg : g.IsPlain) (hlt : id < g.next) :
    ∃ o', o.make id = .ok o' ∧ Stage g place o' ∧ o.Grows o' ∧ o'.Made id := by
  cases hget : o.get? id with
  | some y =>
    refine ⟨o, ?_, hs, .refl o, y, hget⟩
    rw [Objects.make, hget]
  | none =>
    have hnot : id ∉ o.queue := by
      intro hmem
      obtain ⟨y, hy⟩ := (hs.queued id hmem).1
      rw [hget] at hy
      cases hy
    -- a collection is queued, a text is not
    have hpush : ∀ y, waiting? (g.get id).tag = some y →
        ∃ o', o.make id = .ok o' ∧ Stage g place o' ∧ o.Grows o' ∧ o'.Made id := by
      intro y hy
      have hnodup : (o.queue.push id).toList.Nodup := by
        rw [Array.toList_push, List.nodup_append]
        refine ⟨hs.nodup, List.pairwise_singleton _ id, ?_⟩
        rintro a ha b hb rfl
        rw [List.mem_singleton.mp hb] at ha
        exact hnot (Array.mem_toList_iff.mp ha)
      have hqueue : ∀ (i : Nat) (x : NodeId), o.queue[i]? = some x →
          (o.queue.push id)[i]? = some x := by
        intro i x hx
        obtain ⟨hi, -⟩ := Array.getElem?_eq_some_iff.mp hx
        rw [Array.getElem?_push, if_neg (Nat.ne_of_lt hi), hx]
      have hwaits : ∀ x ∈ o.queue.push id,
          x ∈ o.queue ∨ x = id ∧ ∃ z, waiting? (g.get id).tag = some z := fun x hx =>
        (Array.mem_push.mp hx).imp (fun h => h) fun h => ⟨h, y, hy⟩
      refine ⟨_, ?_, hs.insert hlt hget y hnodup hqueue hwaits (.inl Array.mem_push_self)⟩
      rw [Objects.make, hget, hs.graph, hy]
    -- Of the nodes allowed here, collections wait in the queue and texts are made at once.
    have hallowed := hg id hlt
    generalize hnode : g.get id = n at hallowed
    cases hallowed with
    | text s =>
      refine ⟨_, ?_, hs.insert hlt hget _ hs.nodup (fun _ _ h => h) (fun _ h => .inl h)
        (.inr ⟨rfl, Graph.children_text hnode⟩)⟩
      rw [Objects.make, hget, hs.graph, scalarObject_text hnode, hnode]
      rfl
    | list inside =>
      rw [hnode] at hpush
      exact hpush _ rfl
    | map inside keys nodup =>
      rw [hnode] at hpush
      exact hpush _ rfl

/-- **Making objects** of several nodes. -/
theorem foldlM_make (hs : Stage g place o) (hg : g.IsPlain) {xs : List NodeId}
    (hlt : ∀ x ∈ xs, x < g.next) :
    ∃ o', xs.foldlM Objects.make o = .ok o' ∧ Stage g place o' ∧ o.Grows o' ∧
      ∀ x ∈ xs, o'.Made x := by
  induction xs generalizing o with
  | nil => exact ⟨o, rfl, hs, .refl o, fun x hx => absurd hx List.not_mem_nil⟩
  | cons x xs ih =>
    obtain ⟨o₁, hmake, hs₁, hgrows₁, hmade⟩ := hs.make hg (hlt x List.mem_cons_self)
    -- objects that were made stay made, so those of the rest may be made afterwards
    obtain ⟨o₂, hmore, hs₂, hgrows₂, hmades⟩ := ih hs₁ fun y hy => hlt y (List.mem_cons_of_mem _ hy)
    refine ⟨o₂, ?_, hs₂, hgrows₁.trans hgrows₂, fun y hy => ?_⟩
    · rw [List.foldlM_cons, hmake]
      exact hmore
    · rcases List.mem_cons.mp hy with rfl | hy
      · exact hgrows₂.made y hmade
      · exact hmades y hy

/-- **Making objects** of the entries of a mapping. -/
theorem foldlM_makeEntry (hs : Stage g place o) (hg : g.IsPlain) {es : List (NodeId × NodeId)}
    (ds : List (NodeId × NodeId)) (hlt : ∀ e ∈ es, e.1 < g.next ∧ e.2 < g.next)
    (hkeys : ∀ e ∈ es, ∃ s, g.get e.1 = .text s)
    (hnodup : ((ds ++ es).map fun e => g.textOf e.1).Nodup) :
    ∃ o', es.foldlM makeEntry (ds.map fun e => (g.keyOf e.1, e.2), o)
        = .ok ((ds ++ es).map fun e => (g.keyOf e.1, e.2), o') ∧
      Stage g place o' ∧ o.Grows o' ∧ ∀ e ∈ es, o'.Made e.1 ∧ o'.Made e.2 := by
  induction es generalizing o ds with
  | nil =>
    rw [List.append_nil]
    exact ⟨o, rfl, hs, .refl o, fun e he => absurd he List.not_mem_nil⟩
  | cons e es ih =>
    obtain ⟨s, hkey⟩ := hkeys e List.mem_cons_self
    obtain ⟨hlt₁, hlt₂⟩ := hlt e List.mem_cons_self
    -- the key is made first, and then the value
    obtain ⟨o₁, hmake₁, hs₁, hgrows₁, hmade₁⟩ := hs.make hg hlt₁
    obtain ⟨o₂, hmake₂, hs₂, hgrows₂, hmade₂⟩ := hs₁.make hg hlt₂
    have hsplit : ds ++ e :: es = (ds ++ [e]) ++ es := by
      rw [List.append_assoc]
      rfl
    rw [hsplit] at hnodup ⊢
    -- keys differ by their texts, so the entry is added and none is replaced
    have hnew : g.textOf e.1 ∉ ds.map fun d => g.textOf d.1 := by
      rw [List.append_assoc, List.map_append, List.nodup_append] at hnodup
      exact fun hmem => hnodup.2.2 _ hmem _ List.mem_cons_self rfl
    obtain ⟨o₃, hmore, hs₃, hgrows₃, hmades⟩ := ih hs₂ (ds ++ [e])
      (fun d hd => hlt d (List.mem_cons_of_mem _ hd))
      (fun d hd => hkeys d (List.mem_cons_of_mem _ hd)) hnodup
    refine ⟨o₃, ?_, hs₃, (hgrows₁.trans hgrows₂).trans hgrows₃, fun d hd => ?_⟩
    · have hleaf : o₁.get? e.1 = some (.leaf (g.keyOf e.1)) := by
        rw [hs₁.get?_text hkey hmade₁, Graph.object, hkey]
        rfl
      have hentry : makeEntry (ds.map fun e => (g.keyOf e.1, e.2), o) e
          = .ok ((ds ++ [e]).map fun e => (g.keyOf e.1, e.2), o₂) := by
        rw [makeEntry, makeKey]
        simp only [hmake₁, bind, Except.bind, hleaf, hmake₂, putEntry_of_notMem hnew]
      rw [List.foldlM_cons, hentry]
      exact hmore
    · rcases List.mem_cons.mp hd with rfl | hd
      · exact ⟨hgrows₃.made _ (hgrows₂.made _ hmade₁), hgrows₃.made _ hmade₂⟩
      · exact hmades d hd

theorem set_object (hs : Stage g place o) (hid : o.queue[place]? = some id)
    (hchildren : ∀ c ∈ g.children id, o.Made c) :
    Stage g (place + 1) (o.set id (g.object id)) := by
  obtain ⟨hless, -⟩ := Array.getElem?_eq_some_iff.mp hid
  have hmem : id ∈ o.queue := Array.mem_of_getElem? hid
  have hsize : id < o.objects.size := by
    rw [hs.size]
    exact (hs.leaf id (hs.queued id hmem).1).1
  have hmade : ∀ x, o.Made x → (o.set id (g.object id)).Made x := fun x hx => hx.set hsize _
  refine ⟨hs.graph, (Array.size_setIfInBounds ..).trans hs.size, hless, hs.nodup, fun x hx => ?_,
    fun i hi x hx => ?_, fun x hx => ?_⟩
  · exact ⟨hmade x (hs.queued x hx).1, (hs.queued x hx).2⟩
  · -- the places before are filled as they were, and this one with its object
    rw [get?_set hsize]
    rcases Nat.lt_succ_iff_lt_or_eq.mp hi with hi | rfl
    · obtain ⟨hobject, hmades⟩ := hs.filled i hi x hx
      refine ⟨?_, fun c hc => hmade c (hmades c hc)⟩
      split
      · rename_i heq
        rw [heq]
      · exact hobject
    · obtain rfl : x = id := Option.some.inj (hx.symm.trans hid)
      exact ⟨if_pos rfl, fun c hc => hmade c (hchildren c hc)⟩
  · rw [get?_set hsize]
    by_cases heq : x = id
    · subst heq
      exact ⟨(hs.leaf x (hs.queued x hmem).1).1, .inl hmem⟩
    · obtain ⟨z, hz⟩ := hx
      rw [get?_set hsize, if_neg heq] at hz
      rw [if_neg heq]
      exact hs.leaf x ⟨z, hz⟩

/-- **Filling an object** moves the border by one place. -/
theorem fill (hs : Stage g place o) (hg : g.IsPlain) (hid : o.queue[place]? = some id) :
    ∃ o', o.fill id = .ok o' ∧ Stage g (place + 1) o' ∧ ∀ x, o.Made x → o'.Made x := by
  have hmem : id ∈ o.queue := Array.mem_of_getElem? hid
  obtain ⟨hmade, y, hwaits⟩ := hs.queued id hmem
  have hlt := (hs.leaf id hmade).1
  -- the objects of what it holds are made first
  have hfinish : ∀ o', Stage g place o' → o.Grows o' → (∀ c ∈ g.children id, o'.Made c) →
      Stage g (place + 1) (o'.set id (g.object id)) ∧
        ∀ x, o.Made x → (o'.set id (g.object id)).Made x := by
    intro o' hs' hgrows hchildren
    have hsize : id < o'.objects.size := by
      rw [hs'.size]
      exact hlt
    exact ⟨hs'.set_object (hgrows.queue place id hid) hchildren,
      fun x hx => (hgrows.made x hx).set hsize _⟩
  have hallowed := hg id hlt
  generalize hnode : g.get id = n at hallowed
  cases hallowed with
  -- A text is never queued.
  | text s =>
    rw [hnode] at hwaits
    cases hwaits
  | @list xs inside =>
    obtain ⟨o', hmake, hs', hgrows, hmades⟩ := hs.foldlM_make hg inside
    obtain ⟨hstage, hkeep⟩ := hfinish o' hs' hgrows (by rwa [Graph.children_list hnode])
    refine ⟨_, ?_, hstage, hkeep⟩
    rw [Objects.fill, hs.graph, hnode]
    simp only [fillList, hmake, Graph.object_list hnode]
    rfl
  | @map es inside keys nodup =>
    obtain ⟨o', hmake, hs', hgrows, hmades⟩ := hs.foldlM_makeEntry hg [] inside keys nodup
    obtain ⟨hstage, hkeep⟩ := hfinish o' hs' hgrows fun c hc => by
      obtain ⟨e, he, rfl | rfl⟩ := (Graph.mem_children_map hnode).mp hc
      · exact (hmades e he).1
      · exact (hmades e he).2
    refine ⟨_, ?_, hstage, hkeep⟩
    have hentries : entriesOf g id = some es := by
      rw [entriesOf, hnode]
    have hsame : { o with graph := g } = o := by
      rw [← hs.graph]
    rw [List.nil_append] at hmake
    rw [Objects.fill, hs.graph, hnode]
    simp only [fillMap, hs.graph, merge_eq_self hnode keys, bind, Except.bind, hentries,
      Option.getD_some, hsame, Graph.object_map hnode]
    rw [List.map_nil] at hmake
    rw [hmake]

theorem queue_size_le (hs : Stage g place o) : o.queue.size ≤ g.next := by
  have hsub : o.queue.toList ⊆ List.range g.next := by
    intro x hx
    rw [List.mem_range]
    exact (hs.leaf x (hs.queued x (Array.mem_toList_iff.mp hx)).1).1
  have hle := hs.nodup.length_le_of_subset hsub
  rwa [Array.length_toList, List.length_range] at hle

/-- **Filling all objects** comes to the end of the queue. -/
theorem fillAll {fuel : Nat} (hs : Stage g place o) (hg : g.IsPlain)
    (hfuel : g.next ≤ place + fuel) :
    ∃ o' place', o.fillAll fuel place = .ok o' ∧ Stage g place' o' ∧ o'.queue.size ≤ place' ∧
      ∀ x, o.Made x → o'.Made x := by
  induction fuel generalizing place o with
  | zero =>
    exact ⟨o, place, rfl, hs, Nat.le_trans hs.queue_size_le hfuel, fun _ h => h⟩
  | succ fuel ih =>
    rw [Objects.fillAll]
    cases hnext : o.queue[place]? with
    | none => exact ⟨o, place, rfl, hs, Array.getElem?_eq_none_iff.mp hnext, fun _ h => h⟩
    | some id =>
      -- one place is filled, and the queue ends below the number of nodes
      obtain ⟨o₁, hfill, hs₁, hmade₁⟩ := hs.fill hg hnext
      obtain ⟨o₂, place', hmore, hs₂, hend, hmade₂⟩ := ih hs₁ (Nat.le_trans hfuel (by omega))
      refine ⟨o₂, place', ?_, hs₂, hend, fun x hx => hmade₂ x (hmade₁ x hx)⟩
      simp only [hfill, bind, Except.bind]
      exact hmore

end Stage

/-! ### All objects -/

/-- What has been reached has become what it is to become, and so has all that it holds. -/
structure Complete (g : Graph) (o : Objects) : Prop where
  graph : o.graph = g
  object : ∀ id, o.Made id → o.get? id = some (g.object id)
  children : ∀ id, o.Made id → ∀ c ∈ g.children id, o.Made c

theorem Stage.complete (hs : Stage g place o) (hend : o.queue.size ≤ place) : Complete g o := by
  have hall : ∀ id, o.Made id →
      o.get? id = some (g.object id) ∧ ∀ c ∈ g.children id, o.Made c := by
    intro id hid
    -- in the queue, then it was filled before the end, or a leaf without children
    rcases (hs.leaf id hid).2 with hmem | ⟨hobject, hleaf⟩
    · obtain ⟨i, hi⟩ := Array.getElem?_of_mem hmem
      have hlt := (Array.getElem?_eq_some_iff.mp hi).1
      exact hs.filled i (Nat.lt_of_lt_of_le hlt hend) id hi
    · refine ⟨hobject, fun c hc => ?_⟩
      rw [hleaf] at hc
      exact absurd hc List.not_mem_nil
  exact ⟨hs.graph, fun id hid => (hall id hid).1, fun id hid => (hall id hid).2⟩

/-- **The objects of a plain document** are made. -/
theorem ofDocument_plain {d : Document} (hg : d.graph.IsPlain) (hroot : d.root < d.graph.next) :
    ∃ o, ofDocument d = .ok o ∧ Complete d.graph o ∧ o.Made d.root := by
  let o₀ : Objects := ⟨d.graph, Array.replicate d.graph.next none, #[]⟩
  have hnone : ∀ id, ¬ o₀.Made id := by
    rintro id ⟨x, hx⟩
    rw [get?, Array.getD_eq_getD_getElem?, Array.getElem?_replicate] at hx
    split at hx <;> cases hx
  -- nothing has been made yet, so nothing can be wrong
  have hstart : Stage d.graph 0 o₀ :=
    ⟨rfl, Array.size_replicate, Nat.le_refl 0, List.nodup_nil,
      fun id hid => absurd hid (Array.not_mem_empty id), fun i hi => absurd hi (Nat.not_lt_zero i),
      fun id hid => absurd hid (hnone id)⟩
  obtain ⟨o₁, hmake, hs₁, -, hmade₁⟩ := hstart.make hg hroot
  have hfuel : d.graph.next ≤ 0 + (d.graph.next + 1) := by
    rw [Nat.zero_add]
    exact Nat.le_succ _
  obtain ⟨o₂, place, hfill, hs₂, hend, hmade₂⟩ := hs₁.fillAll hg hfuel
  refine ⟨o₂, ?_, hs₂.complete hend, hmade₂ _ hmade₁⟩
  change (o₀.make d.root >>= fun o => o.fillAll (d.graph.next + 1) 0) = _
  rw [hmake]
  exact hfill

end Objects

end Yaml

end Lintel
