import Mathlib.Logic.Equiv.Basic
import Mathlib.Tactic.SplitIfs
import Nstd.Container.LinkedListInvariant

/-!
# The operations of lists

* **`allocateFreeItem_spec`**, **`linkBefore_spec`** — an item is taken and linked.
* **`unlink_spec`**, **`clear_spec`** — items become free ones.
* **`create_spec`** — a new object.
* **`swap_spec`** — two objects exchange their items; `swap_self` — or an object with itself.
* `findFrom_spec` — the loop of `find`.
-/

namespace Nstd.LinkedList

open Linked
open Entries

variable {V : Type}

namespace State

/-! ## Taking an item -/

section Insert

variable {s : State V} {this : ℕ} {l l₁ l₂ : List (Item V)} {free : List Addr}

/-- **A free item** is there after `allocateFreeItem`. -/
theorem allocateFreeItem_spec (h : s.Holds this l free) (ho : s.Owned) (hthis : this < s.lists) :
    ∃ s' item free', s.allocateFreeItem this = (s', some item) ∧ s'.Holds this l (item :: free')
      ∧ s'.Owned ∧ Only s s' this := by
  have hchain := h.freeChain
  rw [allocateFreeItem]
  cases hfree : (s.list this).freeItem with
  | some item =>
    rw [hfree] at hchain
    obtain ⟨free', rfl, -⟩ := stack_some.mp hchain
    exact ⟨s, item, free', rfl, h, ho, Only.refl s this⟩
  | none =>
    rw [hfree] at hchain
    obtain rfl := stack_none.mp hchain
    have hnodup : (slotsOf s.blocks).Nodup := by simp [slotsOf]
    obtain ⟨htop, hstack, hother⟩ := thread_spec hchain hnodup fun _ _ => List.not_mem_nil
    generalize hrun : thread s.prev none (slotsOf s.blocks) = r at htop hstack hother
    obtain ⟨prev, top⟩ := r
    obtain rfl : top = some (.slot s.blocks 3) := htop
    have hnew : s.blocks ∉ (s.list this).blocks := fun hmem =>
      absurd (ho.owners.lt this hthis _ hmem) (Nat.lt_irrefl _)
    have hnotOwned : ∀ a ∈ slotsOf s.blocks, ¬ (s.list this).Owns this a := by
      intro a ha hown
      obtain ⟨i, rfl⟩ := mem_slotsOf ha
      exact hnew hown
    generalize hs' : ({ s with prev, blocks := s.blocks + 1 }.setList this fun o =>
      { o with freeItem := some (.slot s.blocks 3), blocks := s.blocks :: o.blocks } : State V)
      = s'
    have hlist : s'.list = Function.update s.list this { s.list this with
        freeItem := some (.slot s.blocks 3), blocks := s.blocks :: (s.list this).blocks } := by
      rw [← hs']; rfl
    have hthisList := congrFun hlist this
    rw [Function.update_self] at hthisList
    have hprev : s'.prev = prev := by rw [← hs']; rfl
    have hvalue : s'.value = s.value := by rw [← hs']; rfl
    have hnext : s'.next = s.next := by rw [← hs']; rfl
    refine ⟨s', .slot s.blocks 3, [.slot s.blocks 2, .slot s.blocks 1, .slot s.blocks 0],
      by rw [← hs'], ⟨?_, ?_, ?_, ?_, ?_, ?_⟩, ⟨?_, ?_⟩, ?_, ?_, ?_, ?_⟩
    · refine h.chain_congr (ho.nodup hthis) (by rw [hthisList]) fun a ha => ⟨?_, by rw [hnext]⟩
      rw [hprev]
      refine hother a fun hmem => ?_
      rcases List.mem_append.mp ha with hused | hend
      · exact hnotOwned a hmem (h.owns (List.mem_append_left _ hused))
      · obtain ⟨i, hi⟩ := mem_slotsOf hmem
        exact Addr.noConfusion (hi.symm.trans (List.mem_singleton.mp hend))
    · rw [hthisList]; exact h.size
    · rw [hthisList, hprev]; exact hstack
    · rw [hthisList]
      have hslots := h.slots
      rw [List.append_nil] at hslots
      exact List.perm_append_comm.trans
        (((List.reverse_perm (slotsOf s.blocks)).append_right _).trans (hslots.append_left _))
    · rw [hvalue]; exact h.values
    · intro a ha
      obtain ⟨i, rfl⟩ : ∃ i, a = .slot s.blocks i := by
        refine mem_slotsOf (List.mem_reverse.mp ?_)
        exact ha
      rw [hvalue]
      exact ho.fresh s.blocks (Nat.le_refl _) i
    · have hblocks : (fun x => (s'.list x).blocks) = Function.update
          (fun x => (s.list x).blocks) this (s.blocks :: (s.list this).blocks) := by
        funext x
        rw [hlist]
        by_cases hx : x = this
        · rw [hx, Function.update_self, Function.update_self]
        · rw [Function.update_of_ne hx, Function.update_of_ne hx]
      rw [hblocks, ← hs']
      exact ho.owners.push hthis
    · intro b hb i
      rw [hvalue]
      rw [← hs'] at hb
      exact ho.fresh b (Nat.le_of_succ_le hb) i
    · rw [← hs']; rfl
    · intro y hy
      rw [hlist, Function.update_of_ne hy]
    · intro b hb
      rw [hthisList]
      exact List.mem_cons_of_mem _ hb
    · intro a ha
      refine ⟨by rw [hvalue], ?_, by rw [hnext]⟩
      rw [hprev]
      refine hother a fun hmem => ha ?_
      obtain ⟨i, rfl⟩ := mem_slotsOf hmem
      rw [hthisList]
      exact List.mem_cons_self

/-! ## Linking it -/

/-- What `linkBefore` writes -/
lemma linkBefore_run (s : State V) (this : ℕ) (item position : Addr) :
    Rewired s (s.linkBefore this item position) this
      (Function.update (Function.update (s.nextOf this) (s.prev position) (some item)) (some item)
        (some position))
      (Function.update (Function.update s.prev item (s.prev position)) position (some item))
      s.value (s.prev item) ((s.list this).size + 1) := by
  cases hlast : s.prev position with
  | none =>
    have hrun : s.linkBefore this item position = { s with
        prev := Function.update (Function.update s.prev item none) position (some item)
        next := Function.update s.next item (some position)
        list := Function.update s.list this { s.list this with
          begin := item, freeItem := s.prev item, size := (s.list this).size + 1 } } := by
      simp only [linkBefore, setList, hlast, Function.update_self, Function.update_idem]
    rw [hrun]
    refine ⟨?_, rfl, rfl, ⟨item, Function.update_self ..⟩, fun y hy => Function.update_of_ne hy ..,
      rfl, rfl⟩
    funext z
    cases z with
    | none => simp [nextOf]
    | some a => simp [nextOf, Function.update_apply]
  | some q =>
    have hrun : s.linkBefore this item position = { s with
        prev := Function.update (Function.update s.prev item (some q)) position (some item)
        next := Function.update (Function.update s.next q (some item)) item (some position)
        list := Function.update s.list this { s.list this with
          freeItem := s.prev item, size := (s.list this).size + 1 } } := by
      simp only [linkBefore, setList, hlast, Function.update_self, Function.update_idem]
    rw [hrun]
    refine ⟨?_, rfl, rfl, ⟨_, Function.update_self ..⟩, fun y hy => Function.update_of_ne hy ..,
      rfl, rfl⟩
    funext z
    cases z with
    | none => simp [nextOf]
    | some a => simp [nextOf, Function.update_apply]

/-- **The first free item is constructed and linked.** -/
theorem linkBefore_spec {item : Addr} (h : s.Holds this (l₁ ++ l₂) (item :: free)) (ho : s.Owned)
    (hthis : this < s.lists) {position : Addr} {rest : List Addr}
    (hposition : names l₂ ++ [Addr.endItem this] = position :: rest) (value : V) :
    ∃ s', s.construct item value = some s'
      ∧ (s'.linkBefore this item position).Holds this (l₁ ++ ⟨item, value, ()⟩ :: l₂) free
      ∧ (s'.linkBefore this item position).Owned ∧ Only s (s'.linkBefore this item position) this := by
  have hraw : s.value item = none := h.raw item List.mem_cons_self
  refine ⟨{ s with value := Function.update s.value item (some value) }, by rw [construct, hraw], ?_⟩
  have hb := ho.nodup hthis
  have hold : names (l₁ ++ l₂) ++ [Addr.endItem this] = names l₁ ++ position :: rest := by
    rw [names_append, List.append_assoc, hposition]
  have hrun := linkBefore_run { s with value := Function.update s.value item (some value) } this item
    position
  generalize State.linkBefore _ this item position = s' at hrun
  replace hrun : Rewired s s' this _ _ _ _ _ :=
    ⟨hrun.nextOf, hrun.prev, hrun.value, hrun.object, hrun.list, hrun.lists, hrun.blocks⟩
  have hnd := h.nodup_end hb
  have hitem : item ∉ names (l₁ ++ l₂) ++ [Addr.endItem this] := fun hmem =>
    h.ne_free hb hmem List.mem_cons_self rfl
  have hpositionMem : position ∈ names (l₁ ++ l₂) ++ [Addr.endItem this] := by
    rw [hold]
    simp
  obtain ⟨hitemFree, -⟩ := List.nodup_cons.mp (List.nodup_append.mp (h.nodup hb)).2.1
  have hlast : s.prev position = endOf none (names l₁) := by
    have hchain := h.chain
    rw [hold] at hchain
    exact hchain.prev_eq
  -- What does not belong to the object is not written to.
  have hsame : ∀ a, ¬ (s.list this).Owns this a →
      Function.update s.value item (some value) a = s.value a
        ∧ Function.update (Function.update s.prev item (s.prev position)) position (some item) a
          = s.prev a
        ∧ Function.update (Function.update (s.nextOf this) (s.prev position) (some item)) (some item)
          (some position) (some a) = s.next a := by
    intro a ha
    have haItem : a ≠ item := by
      rintro rfl
      exact ha (h.owns (by simp))
    have haMem : a ∉ names (l₁ ++ l₂) := fun hmem => ha (h.owns (List.mem_append_left _ hmem))
    have haPosition : a ≠ position := by
      rintro rfl
      rcases List.mem_append.mp hpositionMem with hmem | hmem
      · exact haMem hmem
      · exact ha (List.mem_singleton.mp hmem ▸ rfl)
    have haLast : some a ≠ s.prev position := by
      rw [hlast]
      exact ne_endOf fun hmem => haMem (names_append l₁ l₂ ▸ List.mem_append_left _ hmem)
    refine ⟨Function.update_of_ne haItem .., ?_, ?_⟩
    · rw [Function.update_of_ne haPosition, Function.update_of_ne haItem]
    · rw [Function.update_of_ne fun heq => haItem (Option.some_inj.mp heq),
        Function.update_of_ne haLast]
      rfl
  obtain ⟨begin, hobject⟩ := hrun.object
  refine ⟨⟨?_, ?_, ?_, ?_, fun e he => ?_, fun a ha => ?_⟩,
    hrun.owned ho hthis fun a ha => (hsame a ha).1, hrun.only hsame⟩
  · have hnew : names (l₁ ++ ⟨item, value, ()⟩ :: l₂) ++ [Addr.endItem this]
        = names l₁ ++ item :: position :: rest := by
      rw [names_append, List.append_assoc, ← hposition]
      rfl
    have hchain := h.chain
    rw [hold] at hchain hnd hitem
    rw [hnew, hrun.nextOf, hrun.prev]
    exact hchain.link (nodup_optional hnd) fun hmem => hitem (mem_optional hmem)
  · rw [hobject, List.length_append, List.length_cons, ← Nat.add_assoc, ← List.length_append]
    exact congrArg (· + 1) h.size
  · rw [hobject, hrun.prev]
    refine h.freeChain.2.congr fun a ha => ?_
    have haItem : a ≠ item := by
      rintro rfl
      exact hitemFree ha
    rw [Function.update_of_ne (h.ne_free hb hpositionMem (List.mem_cons_of_mem item ha)),
      Function.update_of_ne haItem]
  · rw [hobject, names_append]
    have hslots := h.slots
    rw [names_append] at hslots
    refine List.Perm.trans ?_ hslots
    exact (List.perm_middle.append_right free).trans List.perm_middle.symm
  · rw [hrun.value]
    rcases List.mem_cons.mp (List.perm_middle.mem_iff.mp he) with rfl | he
    · exact Function.update_self ..
    · have hne := h.ne_free hb (List.mem_append_left _ (List.mem_map_of_mem he)) List.mem_cons_self
      exact (Function.update_of_ne hne.symm ..).trans (h.values e he)
  · rw [hrun.value]
    refine (Function.update_of_ne ?_ ..).trans (h.raw a (List.mem_cons_of_mem item ha))
    rintro rfl
    exact hitemFree ha

end Insert

/-! ## Removing -/

section Remove

variable {s : State V} {this : ℕ} {l l₁ l₂ : List (Item V)} {free : List Addr}

/-- What `unlink` writes -/
lemma unlink_run {item next : Addr} {v : V} (hnext : s.next item = some next)
    (hvalue : s.value item = some v) :
    ∃ s', s.unlink this item = some s'
      ∧ Rewired s s' this (Function.update (s.nextOf this) (s.prev item) (some next))
        (Function.update (Function.update s.prev next (s.prev item)) item (s.list this).freeItem)
        (Function.update s.value item none) (some item) ((s.list this).size - 1) := by
  cases hlast : s.prev item with
  | none =>
    have hrun : s.unlink this item = some { s with
        prev := Function.update (Function.update s.prev next none) item (s.list this).freeItem
        value := Function.update s.value item none
        list := Function.update s.list this { s.list this with
          begin := next, size := (s.list this).size - 1, freeItem := some item } } := by
      simp only [unlink, unchain, setList, destroy, release, hnext, hlast, hvalue,
        Option.bind_eq_bind, Option.bind_some, Function.update_self, Function.update_idem]
    refine ⟨_, hrun, ?_, rfl, rfl, ⟨next, Function.update_self ..⟩,
      fun y hy => Function.update_of_ne hy .., rfl, rfl⟩
    funext z
    cases z with
    | none => simp [nextOf]
    | some a => simp [nextOf]
  | some q =>
    have hrun : s.unlink this item = some { s with
        next := Function.update s.next q (some next)
        prev := Function.update (Function.update s.prev next (some q)) item (s.list this).freeItem
        value := Function.update s.value item none
        list := Function.update s.list this { s.list this with
          size := (s.list this).size - 1, freeItem := some item } } := by
      simp only [unlink, unchain, setList, destroy, release, hnext, hlast, hvalue,
        Option.bind_eq_bind, Option.bind_some, Function.update_self, Function.update_idem]
    refine ⟨_, hrun, ?_, rfl, rfl, ⟨_, Function.update_self ..⟩,
      fun y hy => Function.update_of_ne hy .., rfl, rfl⟩
    funext z
    cases z with
    | none => simp [nextOf]
    | some a => simp [nextOf, Function.update_apply]

/-- **An item becomes a free one.** -/
theorem unlink_spec {e : Item V} (h : s.Holds this (l₁ ++ e :: l₂) free) (ho : s.Owned)
    (hthis : this < s.lists) :
    ∃ s', s.unlink this e.name = some s' ∧ s'.Holds this (l₁ ++ l₂) (e.name :: free) ∧ s'.Owned
      ∧ Only s s' this ∧ s'.next e.name = (names l₂ ++ [Addr.endItem this]).head? := by
  have hb := ho.nodup hthis
  have hnd := h.nodup_end hb
  obtain ⟨next, rest, hnext⟩ : ∃ next rest, names l₂ ++ [Addr.endItem this] = next :: rest :=
    List.exists_cons_of_ne_nil (by simp)
  have hold : names (l₁ ++ e :: l₂) ++ [Addr.endItem this]
      = names l₁ ++ e.name :: next :: rest := by
    rw [names_append, List.append_assoc, ← hnext]
    rfl
  have hchain := h.chain
  rw [hold] at hchain hnd
  have hnextItem : s.next e.name = some next := hchain.next_eq
  have hlast : s.prev e.name = endOf none (names l₁) := hchain.prev_eq
  obtain ⟨s', hs', hrun⟩ := @unlink_run _ s this _ _ _ hnextItem (h.values e (by simp))
  obtain ⟨begin, hobject⟩ := hrun.object
  have hmem : ∀ a ∈ names l₁ ++ e.name :: next :: rest, a ∈ names (l₁ ++ e :: l₂)
      ∨ a = .endItem this := by
    intro a ha
    rw [← hold, List.mem_append, List.mem_singleton] at ha
    exact ha
  have hnextMem : next ∈ names l₁ ++ e.name :: next :: rest := by simp
  have hitemLast : some e.name ≠ s.prev e.name := by
    rw [hlast]
    refine ne_endOf fun hmem => ?_
    exact (List.nodup_append.mp hnd).2.2 _ hmem _ List.mem_cons_self rfl
  -- What does not belong to the object is not written to.
  have hsame : ∀ a, ¬ (s.list this).Owns this a →
      Function.update s.value e.name none a = s.value a
        ∧ Function.update (Function.update s.prev next (s.prev e.name)) e.name
          (s.list this).freeItem a = s.prev a
        ∧ Function.update (s.nextOf this) (s.prev e.name) (some next) (some a) = s.next a := by
    intro a ha
    have haMem : a ∉ names l₁ ++ e.name :: next :: rest := by
      intro hin
      rcases hmem a hin with hin | rfl
      · exact ha (h.owns (List.mem_append_left _ hin))
      · exact ha rfl
    have haItem : a ≠ e.name := by
      rintro rfl
      exact haMem (by simp)
    have haNext : a ≠ next := by
      rintro rfl
      exact haMem hnextMem
    have haLast : some a ≠ s.prev e.name := by
      rw [hlast]
      exact ne_endOf fun hin => haMem (List.mem_append_left _ hin)
    refine ⟨Function.update_of_ne haItem .., ?_, ?_⟩
    · rw [Function.update_of_ne haItem, Function.update_of_ne haNext]
    · rw [Function.update_of_ne haLast]
      rfl
  have hother : ∀ e' ∈ l₁ ++ l₂, e'.name ≠ e.name := by
    intro e' he' heq
    have hperm : (names (l₁ ++ e :: l₂)).Perm (e.name :: names (l₁ ++ l₂)) :=
      List.perm_middle.map Entry.name
    have hnames := (List.nodup_append.mp (h.nodup hb)).1
    exact (List.nodup_cons.mp (hperm.nodup_iff.mp hnames)).1 (heq ▸ List.mem_map_of_mem he')
  refine ⟨s', hs', ⟨?_, ?_, ?_, ?_, fun e' he' => ?_, fun a ha => ?_⟩,
    hrun.owned ho hthis fun a ha => (hsame a ha).1, hrun.only hsame, ?_⟩
  · have hnew : names (l₁ ++ l₂) ++ [Addr.endItem this] = names l₁ ++ next :: rest := by
      rw [names_append, List.append_assoc, hnext]
    rw [hnew, hrun.nextOf, hrun.prev]
    exact hchain.unlink (nodup_optional hnd) _
  · rw [hobject, List.length_append]
    have hsize := h.size
    rw [List.length_append, List.length_cons] at hsize
    simp only
    omega
  · rw [hobject, hrun.prev]
    refine ⟨rfl, ?_⟩
    rw [Function.update_self]
    refine h.freeChain.congr fun a ha => ?_
    have hne : ∀ b ∈ names l₁ ++ e.name :: next :: rest, a ≠ b := fun b hb' =>
      h.ne_free hb (hold ▸ hb') ha
    rw [Function.update_of_ne (hne e.name (by simp)), Function.update_of_ne (hne next hnextMem)]
  · rw [hobject, names_append]
    have hslots := h.slots
    rw [names_append] at hslots
    refine List.Perm.trans ?_ hslots
    exact List.perm_middle.trans (List.perm_middle.symm.append_right free)
  · rw [hrun.value, Function.update_of_ne (hother e' he')]
    exact h.values e' (List.perm_middle.mem_iff.mpr (List.mem_cons_of_mem e he'))
  · rw [hrun.value]
    by_cases ha' : a = e.name
    · rw [ha', Function.update_self]
    · rw [Function.update_of_ne ha']
      exact h.raw a ((List.mem_cons.mp ha).resolve_left ha')
  · have hnextOf := congrFun hrun.nextOf (some e.name)
    rw [Function.update_of_ne hitemLast] at hnextOf
    rw [hnext]
    exact hnextOf.trans hnextItem

/-- **The loop of `clear`** destroys the values and makes the items free ones. -/
lemma clearFrom_spec {rest : List (Item V)} : ∀ {s : State V} {free tail : List Addr} {i : Addr}
    {fuel : ℕ}, rest.length < fuel → names rest ++ [.endItem this] = i :: tail →
    ((i :: tail).IsChain fun a b => s.next a = some b) →
    (names rest ++ [Addr.endItem this]).Nodup → Stack s.prev (s.list this).freeItem free →
    (∀ a ∈ names rest, a ∉ free) → (∀ e ∈ rest, s.value e.name = some e.key) →
    ∃ prev value freeItem, clearFrom this fuel s i = some { s with
        prev, value, list := Function.update s.list this { s.list this with freeItem } }
      ∧ Stack prev freeItem ((names rest).reverse ++ free)
      ∧ (∀ a, a ∉ names rest → value a = s.value a ∧ prev a = s.prev a)
      ∧ ∀ a ∈ names rest, value a = none := by
  induction rest with
  | nil =>
    intro s free tail i fuel hfuel hrest _ _ hfree _ _
    obtain ⟨rfl, -⟩ := List.cons.inj hrest
    cases fuel with
    | zero => exact absurd hfuel (Nat.lt_irrefl 0)
    | succ fuel =>
      refine ⟨s.prev, s.value, (s.list this).freeItem, ?_, hfree, fun _ _ => ⟨rfl, rfl⟩,
        fun a ha => absurd ha List.not_mem_nil⟩
      rw [clearFrom, if_pos rfl, Function.update_eq_self]
  | cons e rest ih =>
    intro s free tail i fuel hfuel hrest hnext hnd hfree hdisjoint hvalues
    obtain ⟨rfl, rfl⟩ := List.cons.inj hrest
    obtain ⟨he, hnd'⟩ := List.nodup_cons.mp hnd
    have hend : e.name ≠ .endItem this := fun heq =>
      he (heq ▸ List.mem_append_right _ (List.mem_singleton_self _))
    have heRest : e.name ∉ names rest := fun hmem => he (List.mem_append_left _ hmem)
    obtain ⟨next, tail, htail⟩ : ∃ next tail, names rest ++ [Addr.endItem this] = next :: tail :=
      List.exists_cons_of_ne_nil (by simp)
    cases fuel with
    | zero => exact absurd hfuel (Nat.not_lt_zero _)
    | succ fuel =>
      change (e.name :: (names rest ++ [Addr.endItem this])).IsChain _ at hnext
      rw [htail] at hnext
      obtain ⟨hnextItem, hnext⟩ := List.isChain_cons_cons.mp hnext
      have hstack : Stack (Function.update s.prev e.name (s.list this).freeItem) (some e.name)
          (e.name :: free) := by
        refine ⟨rfl, ?_⟩
        rw [Function.update_self]
        refine hfree.congr fun b hb => Function.update_of_ne ?_ ..
        rintro rfl
        exact hdisjoint e.name List.mem_cons_self hb
      have hdisjoint' : ∀ b ∈ names rest, b ∉ e.name :: free := by
        intro b hb hmem
        rcases List.mem_cons.mp hmem with rfl | hmem
        · exact heRest hb
        · exact hdisjoint b (List.mem_cons_of_mem _ hb) hmem
      have hvalues' : ∀ e' ∈ rest, Function.update s.value e.name none e'.name = some e'.key := by
        intro e' he'
        rw [Function.update_of_ne]
        · exact hvalues e' (List.mem_cons_of_mem e he')
        · intro heq
          exact heRest (heq ▸ List.mem_map_of_mem he')
      have hfreeItem : (Function.update s.list this { s.list this with
          freeItem := some e.name } this).freeItem = some e.name := by
        rw [Function.update_self]
      obtain ⟨prev, value, freeItem, hrun, hstack', hother, hnone⟩ :=
        @ih { s with
            value := Function.update s.value e.name none
            prev := Function.update s.prev e.name (s.list this).freeItem
            list := Function.update s.list this { s.list this with freeItem := some e.name } }
          (e.name :: free) tail next fuel (Nat.lt_of_succ_lt_succ hfuel) htail hnext hnd'
          (hfreeItem.symm ▸ hstack) hdisjoint' hvalues'
      refine ⟨prev, value, freeItem, ?_, ?_, fun a ha => ?_, fun a ha => ?_⟩
      · rw [clearFrom, if_neg hend, destroy, hvalues e List.mem_cons_self]
        simp only [Function.update_idem, Function.update_self] at hrun
        simp only [Option.bind_eq_bind, Option.bind_some, release, setList, hnextItem]
        exact hrun
      · change Stack prev freeItem ((e.name :: names rest).reverse ++ free)
        rw [List.reverse_cons, List.append_assoc, List.singleton_append]
        exact hstack'
      · obtain ⟨hne, ha⟩ := not_or.mp (List.mem_cons.not.mp ha)
        obtain ⟨hv, hp⟩ := hother a ha
        exact ⟨hv.trans (Function.update_of_ne hne ..), hp.trans (Function.update_of_ne hne ..)⟩
      · by_cases hmem : a ∈ names rest
        · exact hnone a hmem
        · obtain rfl : a = e.name := (List.mem_cons.mp ha).resolve_right hmem
          exact (hother _ hmem).1.trans (Function.update_self ..)

/-- **All items become free ones.** -/
theorem clear_spec (h : s.Holds this l free) (ho : s.Owned) (hthis : this < s.lists) :
    ∃ s', s.clear this = some s' ∧ s'.Holds this [] ((names l).reverse ++ free) ∧ s'.Owned
      ∧ Only s s' this := by
  have hb := ho.nodup hthis
  obtain ⟨i, tail, htail⟩ : ∃ i tail, names l ++ [Addr.endItem this] = i :: tail :=
    List.exists_cons_of_ne_nil (by simp)
  have hchain := h.chain
  rw [htail] at hchain
  have hbegin : (s.list this).begin = i := Option.some_inj.mp hchain.1
  obtain ⟨prev, value, freeItem, hrun, hstack, hother, hnone⟩ :=
    clearFrom_spec (h.size ▸ Nat.lt_succ_self _ : l.length < (s.list this).size + 1) htail
      hchain.isChain (h.nodup_end hb) h.freeChain
      (fun a ha hmem => (List.nodup_append.mp (h.nodup hb)).2.2 a ha a hmem rfl) h.values
  have hclear : s.clear this = some { s with
      value
      prev := Function.update prev (.endItem this) none
      list := Function.update s.list this
        { s.list this with freeItem, begin := .endItem this, size := 0 } } := by
    rw [clear, hbegin, hrun]
    simp only [Option.bind_eq_bind, Option.bind_some, setList, Function.update_idem,
      Function.update_self]
  have hrewired : Rewired s { s with
      value
      prev := Function.update prev (.endItem this) none
      list := Function.update s.list this
        { s.list this with freeItem, begin := .endItem this, size := 0 } } this
      (Function.update (s.nextOf this) none (some (.endItem this)))
      (Function.update prev (.endItem this) none) value freeItem 0 := by
    refine ⟨?_, rfl, rfl, ⟨_, Function.update_self ..⟩, fun y hy => Function.update_of_ne hy ..,
      rfl, rfl⟩
    funext z
    cases z with
    | none => simp [nextOf]
    | some a => simp [nextOf]
  generalize ({ s with
      value
      prev := Function.update prev (.endItem this) none
      list := Function.update s.list this
        { s.list this with freeItem, begin := .endItem this, size := 0 } } : State V) = s'
    at hclear hrewired
  have hsame : ∀ a, ¬ (s.list this).Owns this a → value a = s.value a
      ∧ Function.update prev (.endItem this) none a = s.prev a
      ∧ Function.update (s.nextOf this) none (some (.endItem this)) (some a) = s.next a := by
    intro a ha
    obtain ⟨hv, hp⟩ := hother a fun hmem => ha (h.owns (List.mem_append_left _ hmem))
    refine ⟨hv, ?_, ?_⟩
    · rw [Function.update_of_ne, hp]
      rintro rfl
      exact ha rfl
    · exact Function.update_of_ne (Option.some_ne_none a) ..
  obtain ⟨begin, hobject⟩ := hrewired.object
  refine ⟨s', hclear, ⟨⟨?_, ?_, trivial⟩, ?_, ?_, ?_, fun e he => absurd he List.not_mem_nil,
    fun a ha => ?_⟩, hrewired.owned ho hthis fun a ha => (hsame a ha).1, hrewired.only hsame⟩
  · rw [hrewired.nextOf, Function.update_self]
  · rw [hrewired.prev, Function.update_self]
  · rw [hobject]
    rfl
  · rw [hobject, hrewired.prev]
    refine hstack.congr fun a ha => Function.update_of_ne ?_ ..
    refine h.ne_endItem ?_ this
    rcases List.mem_append.mp ha with hmem | hmem
    · exact List.mem_append_left _ (List.mem_reverse.mp hmem)
    · exact List.mem_append_right _ hmem
  · rw [hobject]
    exact ((List.reverse_perm (names l)).append_right free).trans h.slots
  · rw [hrewired.value]
    by_cases hmem : a ∈ names l
    · exact hnone a hmem
    · refine (hother a hmem).1.trans (h.raw a ?_)
      rcases List.mem_append.mp ha with ha | ha
      · exact absurd (List.mem_reverse.mp ha) hmem
      · exact ha

end Remove

/-! ## Objects -/

section Objects

variable {s s' : State V} {x y this other : ℕ} {l : List (Item V)} {free : List Addr}

/-- **A new object** has no entries, and the others are as they were. -/
theorem create_spec (ho : s.Owned) : s.create.Owned ∧ s.create.Holds s.lists [] []
    ∧ ∀ x < s.lists, ∀ l free, s.Holds x l free → s.create.Holds x l free := by
  refine ⟨⟨?_, ho.fresh⟩, ⟨⟨?_, Function.update_self .., trivial⟩, ?_, ?_, ?_,
    fun e he => absurd he List.not_mem_nil, fun a ha => absurd ha List.not_mem_nil⟩, ?_⟩
  · have hblocks : (fun x => (s.create.list x).blocks)
        = Function.update (fun x => (s.list x).blocks) s.lists [] := by
      funext x
      simp only [create, Function.update_apply]
      split <;> rfl
    rw [hblocks]
    exact ho.owners.create
  · simp only [create, nextOf, Function.update_self]
  · simp only [create, Function.update_self, List.length_nil]
  · simp only [create, Function.update_self]
    rfl
  · simp [create, names]
  · intro x hx l free h
    have hxs : x ≠ s.lists := Nat.ne_of_lt hx
    refine h.congr (ho.nodup hx) (Function.update_of_ne hxs ..) fun a ha => ?_
    have haEnd : a ≠ .endItem s.lists := by
      rintro rfl
      exact hxs ha.symm
    exact ⟨rfl, Function.update_of_ne haEnd .., Function.update_of_ne haEnd ..⟩

/-- **What an object becomes** that takes over the fields `o` and the items up to `last` -/
structure Takes (s' : State V) (x : ℕ) (o : Object) (last : Option Addr) : Prop where
  size : (s'.list x).size = o.size
  freeItem : (s'.list x).freeItem = o.freeItem
  blocks : (s'.list x).blocks = o.blocks
  begin : last ≠ none → (s'.list x).begin = o.begin
  prevEnd : s'.prev (.endItem x) = last
  nextLast : s'.nextOf x last = some (.endItem x)

lemma Takes.congr {s'' : State V} {o : Object} {last : Option Addr} (h : Takes s' x o last)
    (hlist : s''.list x = s'.list x) (hprev : s''.prev (.endItem x) = s'.prev (.endItem x))
    (hnext : ∀ a, some a = last → s''.next a = s'.next a) : Takes s'' x o last := by
  refine ⟨hlist ▸ h.size, hlist ▸ h.freeItem, hlist ▸ h.blocks, hlist ▸ h.begin,
    hprev.trans h.prevEnd, ?_⟩
  rw [← h.nextLast]
  cases last with
  | none => exact congrArg (fun o => some o.begin) hlist
  | some a => exact hnext a rfl

/-- What one half of `swap` writes -/
lemma take_run (s : State V) (this : ℕ) (o : Object) (last : Option Addr) :
    Takes (s.take this o last) this o last
      ∧ (∀ a, some a ≠ last → (s.take this o last).next a = s.next a)
      ∧ (∀ a, a ≠ .endItem this → (s.take this o last).prev a = s.prev a)
      ∧ (∀ z, z ≠ this → (s.take this o last).list z = s.list z)
      ∧ (s.take this o last).value = s.value ∧ (s.take this o last).lists = s.lists
      ∧ (s.take this o last).blocks = s.blocks := by
  cases last with
  | none =>
    have hself : (s.take this o none).list this = { o with begin := .endItem this } :=
      Function.update_self ..
    exact ⟨⟨by rw [hself], by rw [hself], by rw [hself], fun h => absurd rfl h,
      Function.update_self .., congrArg (fun o => some (Object.begin o)) hself⟩,
      fun _ _ => rfl,
      fun a ha => Function.update_of_ne ha .., fun z hz => Function.update_of_ne hz .., rfl, rfl, rfl⟩
  | some q =>
    have hself : (s.take this o (some q)).list this = o := Function.update_self ..
    exact ⟨⟨by rw [hself], by rw [hself], by rw [hself], fun _ => by rw [hself],
      Function.update_self .., Function.update_self ..⟩,
      fun a ha => Function.update_of_ne (fun heq => ha (congrArg some heq)) ..,
      fun a ha => Function.update_of_ne ha .., fun z hz => Function.update_of_ne hz .., rfl, rfl, rfl⟩

/-- The entries of another object -/
lemma Holds.take (h : s.Holds y l free) (hb : (s.list y).blocks.Nodup)
    (ht : Takes s' x (s.list y) (s.prev (.endItem y)))
    (hnext : ∀ a ∈ names l, some a ≠ s.prev (.endItem y) → s'.next a = s.next a)
    (hprev : ∀ a ∈ names l ++ free, s'.prev a = s.prev a) (hvalue : s'.value = s.value) :
    s'.Holds x l free := by
  have hlast : s.prev (.endItem y) = endOf none (names l) := h.chain.prev_eq
  have hnd := (List.nodup_append.mp (h.nodup hb)).1
  refine ⟨?_, ht.size.trans h.size, ?_, ht.blocks ▸ h.slots, hvalue ▸ h.values, hvalue ▸ h.raw⟩
  · rw [hlast] at ht hnext
    refine h.chain.relocate (nodup_optional hnd) ht.nextLast ht.prevEnd ?_
      fun a ha => hprev a (List.mem_append_left _ ha)
    intro z hz hne
    cases z with
    | none => exact congrArg some (ht.begin (Ne.symm hne))
    | some a => exact hnext a (mem_optional hz) hne
  · rw [ht.freeItem]
    exact h.freeChain.congr fun a ha => hprev a (List.mem_append_right _ ha)

lemma Holds.last_owned (h : s.Holds x l free) {q : Addr} (hq : s.prev (.endItem x) = some q) :
    q ∈ names l := by
  have hlast : s.prev (.endItem x) = endOf none (names l) := h.chain.prev_eq
  exact mem_optional (hq ▸ hlast ▸ endOf_mem none (names l))

/-- **Two objects exchange their entries**, and the others are as they were. -/
theorem swap_spec (ho : s.Owned) (hthis : this < s.lists) (hother : other < s.lists)
    (hne : this ≠ other) {l' : List (Item V)} {free' : List Addr} (h : s.Holds this l free)
    (h' : s.Holds other l' free') :
    (s.swap this other).Owned ∧ (s.swap this other).Holds this l' free'
      ∧ (s.swap this other).Holds other l free
      ∧ ∀ z < s.lists, z ≠ this → z ≠ other → ∀ l free, s.Holds z l free →
        (s.swap this other).Holds z l free := by
  obtain ⟨ht₁, hnext₁, hprev₁, hlist₁, hvalue₁, hlists₁, hblocks₁⟩ :=
    take_run s this (s.list other) (s.prev (.endItem other))
  obtain ⟨ht₂, hnext₂, hprev₂, hlist₂, hvalue₂, hlists₂, hblocks₂⟩ :=
    take_run (s.take this (s.list other) (s.prev (.endItem other))) other (s.list this)
      (s.prev (.endItem this))
  generalize hs₁ : s.take this (s.list other) (s.prev (.endItem other)) = s₁ at *
  have hswap : s.swap this other = s₁.take other (s.list this) (s.prev (.endItem this)) := by
    rw [swap, hs₁]
  rw [hswap]
  generalize s₁.take other (s.list this) (s.prev (.endItem this)) = s₂ at *
  have hends : Addr.endItem this ≠ .endItem other := fun heq => hne (Addr.endItem.inj heq)
  -- An item that an object owns is not the last one of another object.
  have hlast : ∀ {x y : ℕ} {k : List (Item V)} {f : List Addr}, x < s.lists → y < s.lists → x ≠ y →
      s.Holds y k f → ∀ a, (s.list x).Owns x a → some a ≠ s.prev (.endItem y) := by
    intro x y k f hx hy hxy hk a ha heq
    exact ho.not_owns hx hy hxy ha (hk.owns (List.mem_append_left _ (hk.last_owned heq.symm)))
  have ht : Takes s₂ this (s.list other) (s.prev (.endItem other)) := by
    refine ht₁.congr (hlist₂ this hne) (hprev₂ _ hends) fun a ha => hnext₂ a ?_
    exact hlast hother hthis (Ne.symm hne) h a
      (h'.owns (List.mem_append_left _ (h'.last_owned ha.symm)))
  have hprev : ∀ a, a ≠ .endItem this → a ≠ .endItem other → s₂.prev a = s.prev a :=
    fun a ha ha' => (hprev₂ a ha').trans (hprev₁ a ha)
  have hnext : ∀ a, some a ≠ s.prev (.endItem this) → some a ≠ s.prev (.endItem other) →
      s₂.next a = s.next a := fun a ha ha' => (hnext₂ a ha).trans (hnext₁ a ha')
  have hvalue : s₂.value = s.value := hvalue₂.trans hvalue₁
  have hlist : ∀ z, z ≠ this → z ≠ other → s₂.list z = s.list z := fun z hz hz' =>
    (hlist₂ z hz').trans (hlist₁ z hz)
  refine ⟨⟨?_, ?_⟩, ?_, ?_, ?_⟩
  · have hblocks : (fun x => (s₂.list x).blocks)
        = fun x => (s.list (Equiv.swap this other x)).blocks := by
      funext x
      by_cases hx : x = this
      · rw [hx, Equiv.swap_apply_left, ht.blocks]
      · by_cases hx' : x = other
        · rw [hx', Equiv.swap_apply_right, ht₂.blocks]
        · rw [Equiv.swap_apply_of_ne_of_ne hx hx', hlist x hx hx']
    rw [hblocks, hlists₂, hlists₁, hblocks₂, hblocks₁]
    refine ho.owners.permute (fun x hx => ?_) (Equiv.injective _)
    rw [Equiv.swap_apply_def]
    split_ifs
    · exact hother
    · exact hthis
    · exact hx
  · rw [hblocks₂, hblocks₁, hvalue]
    exact ho.fresh
  · refine h'.take (ho.nodup hother) ht (fun a ha ha' => hnext a ?_ ha') (fun a ha => ?_) hvalue
    · exact hlast hother hthis (Ne.symm hne) h a (h'.owns (List.mem_append_left _ ha))
    · exact hprev a (h'.ne_endItem ha this) (h'.ne_endItem ha other)
  · refine h.take (ho.nodup hthis) ht₂ (fun a ha ha' => hnext a ha' ?_) (fun a ha => ?_) hvalue
    · exact hlast hthis hother hne h' a (h.owns (List.mem_append_left _ ha))
    · exact hprev a (h.ne_endItem ha this) (h.ne_endItem ha other)
  · intro z hz hzt hzo k f hk
    refine hk.congr (ho.nodup hz) (hlist z hzt hzo) fun a ha => ⟨congrFun hvalue a, ?_, ?_⟩
    · refine hprev a ?_ ?_
      · rintro rfl
        exact hzt ha.symm
      · rintro rfl
        exact hzo ha.symm
    · exact hnext a (hlast hz hthis hzt h a ha) (hlast hz hother hzo h' a ha)

/-- Nothing happens to an object that is swapped with itself. -/
lemma swap_self (h : s.Holds this l free) : s.swap this this = s := by
  have hlast : s.nextOf this (s.prev (.endItem this)) = some (.endItem this) := by
    rw [show s.prev (.endItem this) = endOf none (names l) from h.chain.prev_eq]
    exact (chain_append.mp h.chain).2.1
  have htake : s.take this (s.list this) (s.prev (.endItem this)) = s := by
    cases hprev : s.prev (.endItem this) with
    | none =>
      rw [hprev] at hlast
      have hbegin : { s.list this with begin := .endItem this } = s.list this := by
        rw [← Option.some_inj.mp hlast]
      rw [take, ← hprev]
      simp only [setList, Function.update_eq_self]
      rw [hbegin, Function.update_eq_self]
    | some q =>
      rw [hprev] at hlast
      have hnext : s.next q = some (.endItem this) := hlast
      rw [take, ← hprev]
      simp only [setList, Function.update_eq_self, ← hnext]
  rw [swap, htake, htake]

/-- **The loop of `find`** -/
lemma findFrom_spec [BEq V] {rest : List (Item V)} (value : V) : ∀ {tail : List Addr} {i : Addr}
    {fuel : ℕ}, rest.length < fuel → names rest ++ [.endItem this] = i :: tail →
    ((i :: tail).IsChain fun a b => s.next a = some b) →
    (∀ e ∈ rest, e.name ≠ .endItem this) → (∀ e ∈ rest, s.value e.name = some e.key) →
    s.findFrom value (.endItem this) fuel i
      = some (((find? value rest).map Entry.name).getD (.endItem this)) := by
  induction rest with
  | nil =>
    intro tail i fuel hfuel hrest _ _ _
    obtain ⟨rfl, -⟩ := List.cons.inj hrest
    cases fuel with
    | zero => exact absurd hfuel (Nat.lt_irrefl 0)
    | succ fuel => exact if_pos rfl
  | cons e rest ih =>
    intro tail i fuel hfuel hrest hnext hend hvalues
    obtain ⟨rfl, rfl⟩ := List.cons.inj hrest
    obtain ⟨next, tail, htail⟩ : ∃ next tail, names rest ++ [Addr.endItem this] = next :: tail :=
      List.exists_cons_of_ne_nil (by simp)
    change (e.name :: (names rest ++ [Addr.endItem this])).IsChain _ at hnext
    rw [htail] at hnext
    obtain ⟨hnextItem, hnext⟩ := List.isChain_cons_cons.mp hnext
    cases fuel with
    | zero => exact absurd hfuel (Nat.not_lt_zero _)
    | succ fuel =>
      rw [findFrom, if_neg (hend e List.mem_cons_self), hvalues e List.mem_cons_self, find?,
        List.find?_cons]
      simp only [Option.bind_eq_bind, Option.bind_some]
      cases hkey : e.key == value with
      | true => rfl
      | false =>
        rw [if_neg Bool.false_ne_true, hnextItem]
        exact ih (Nat.lt_of_succ_lt_succ hfuel) htail hnext
          (fun e' he' => hend e' (List.mem_cons_of_mem e he'))
          fun e' he' => hvalues e' (List.mem_cons_of_mem e he')

end Objects

end State

end Nstd.LinkedList
