import PagedMachine.Proofs.Counting
import PagedMachine.Proofs.Representation

/-!
# Private pages

Before a store a flagged page becomes private. Alone in its frame it stays there;
a shared one is copied to another frame, and the rest of its mappings keep the
old one. Both are what virtual memory does, with a frame for its new page.
-/

namespace PagedMachine.PagedMemory

variable {m m' m₀ : PagedMemory} {v : Virtual.Memory} {name : Location → Nat}
    {pid page frame copy : Word} {d : Directory} {mp : Mapping}

/-! ## Mappings of pages that move -/

theorem Relocates.find? {source target : Location} (h : Relocates source target m m')
    (hd : m.processes.find? pid = some d) :
    m'.processes.find? pid = some (d.repoint source target) := by
  rw [h.processes, Table.find?_map, hd]
  rfl

theorem find?_repoint_of_ne {source target : Location} (hm : d.find? page = some mp)
    (hne : mp.location ≠ source) : (d.repoint source target).find? page = some mp := by
  rw [Directory.repoint, Table.find?_map, hm, Option.map_some, if_neg hne]

theorem find?_repoint_self {source target : Location} (hm : d.find? page = some mp)
    (he : mp.location = source) :
    (d.repoint source target).find? page = some { mp with location := target } := by
  rw [Directory.repoint, Table.find?_map, hm, Option.map_some, if_pos he]

/-- A pinned page, and one that is on the disk, is mapped as it was. -/
theorem MadeRoom.find? {pinned : Option Word} (h : MadeRoom pinned m m')
    (hd : m.processes.find? pid = some d) (hm : d.find? page = some mp)
    (hp : ∀ frame, mp.location = .frame frame → some frame = pinned) :
    ∃ d', m'.processes.find? pid = some d' ∧ d'.find? page = some mp := by
  rcases h with rfl | ⟨out, slot, hne, hr⟩
  · exact ⟨d, hd, hm⟩
  · exact ⟨_, hr.find? hd, find?_repoint_of_ne hm fun e => hne (hp out e)⟩

theorem MadeRoom.find?_none {pinned : Option Word} (h : MadeRoom pinned m m')
    (hd : m.processes.find? pid = some d) (hm : d.find? page = none) :
    ∃ d', m'.processes.find? pid = some d' ∧ d'.find? page = none := by
  rcases h with rfl | ⟨out, slot, hne, hr⟩
  · exact ⟨d, hd, hm⟩
  · refine ⟨_, hr.find? hd, ?_⟩
    rw [Directory.repoint, Table.find?_map, hm]
    rfl

theorem MadeRoom.find?_pinned (h : MadeRoom (some frame) m m') (hd : m.processes.find? pid = some d)
    (hm : d.find? page = some mp) (hl : mp.location = .frame frame) :
    ∃ d', m'.processes.find? pid = some d' ∧ d'.find? page = some mp :=
  h.find? hd hm fun _ hg => congrArg some (Location.frame.inj (hg.symm.trans hl))

theorem MadeRoom.mappingsOf_pinned (h : MadeRoom (some frame) m m')
    (hl : m.mappingsOf (.frame frame) ≠ 0) :
    m'.mappingsOf (.frame frame) = m.mappingsOf (.frame frame) :=
  h.mappingsOf hl fun _ hg => congrArg some (Location.frame.inj hg).symm

theorem MadeRoom.current {pinned : Option Word} (h : MadeRoom pinned m m') :
    m'.current = m.current := by
  rcases h with rfl | ⟨_, _, _, hr⟩
  · rfl
  · exact hr.current

/-! ## Alone in a frame -/

def own (frame : Word) (mp : Mapping) : Mapping :=
  { mp with location := .frame frame, copyOnWrite := false }

theorem location_own (frame : Word) (mp : Mapping) : (own frame mp).location = .frame frame := rfl

theorem mappingsOf_update_own (hm : d.find? page = some mp) (hl : mp.location = .frame frame)
    (l : Location) : Directory.mappingsOf (d.update page (own frame)) l = d.mappingsOf l :=
  Nat.add_right_cancel (Directory.mappingsOf_update hm hl (location_own frame mp) l)

theorem rename_update_own (name : Location → Nat) (hm : d.find? page = some mp)
    (hl : mp.location = .frame frame) :
    Directory.rename name (d.update page (own frame)) =
      Table.update (d.rename name) page fun mv => { mv with copyOnWrite := false } := by
  refine Table.map_update _ _ ?_
  intro mp' hm'
  obtain rfl : mp = mp' := Option.some.inj (hm.symm.trans hm')
  rw [own, Mapping.rename, Mapping.rename, hl]

theorem RepresentedBy.ownInPlace (hv : RepresentedBy name m v) (hd : m.processes.find? pid = some d)
    (hm : d.find? page = some mp) (hl : mp.location = .frame frame) (hc : m.current = some pid)
    (hone : m.mappingsOf (.frame frame) ≤ 1) :
    RepresentedBy name (m.changed pid (·.update page (own frame)))
    (v.privatise page (mp.rename name)) := by
  have hne : m.mappingsOf (.frame frame) ≠ 0 := hl ▸ mappingsOf_ne_zero hd hm
  have hpage : v.mappingsOf (mp.rename name).page = m.mappingsOf (.frame frame) := by
    rw [← hv.mappingsOf hne, Mapping.rename, hl]
  rw [Virtual.Memory.privatise, if_neg (by omega),
    Virtual.Memory.updateCurrent_eq (hv.current.trans hc)]
  refine hv.changed hd (rename_update_own name hm hl) fun l hl' => ?_
  rw [mappingsOf_update_own hm hl] at hl'
  have : d.mappingsOf l ≤ m.mappingsOf l := Table.le_sum hd fun d => d.mappingsOf l
  omega

/-! ## A copy -/

def ownCopy (m : PagedMemory) (pid page frame copy : Word) (ram : Ram) : PagedMemory :=
  { (m.toPaging.occupy (.frame copy) 1).recount (.frame frame) (m.refs (.frame frame) - 1) with
    processes := m.processes.update pid (·.update page (own copy))
    counters := { m.counters with copies := m.counters.copies.succ }
    ram := ram }

theorem processes_ownCopy {ram : Ram} : (m.ownCopy pid page frame copy ram).processes =
    m.processes.update pid (·.update page (own copy)) := rfl

theorem byteAt_ownCopy (ram : Ram) (l : Location) (o : Nat) :
    (m.ownCopy pid page frame copy ram).byteAt l o = { m with ram := ram }.byteAt l o := by
  rcases m.framePool_eq copy with hp | hp <;> cases l
  all_goals simp [ownCopy, Paging.occupy, Paging.recount, Paging.setFree, PagedMemory.byteAt]

theorem sameExtent_ownCopy {ram : Ram} (hb : ram.base = m.ram.base) (hs : ram.size = m.ram.size) :
    SameExtent m (m.ownCopy pid page frame copy ram) where
  range :=
    ((m.occupy (.frame copy) 1).range_recount (.frame frame) (m.refs (.frame frame) - 1)).trans
    (m.range_occupy (.frame copy) 1)
  ramBase := hb
  ramSize := hs
  diskBase := by simp [ownCopy, Paging.occupy, Paging.recount, Paging.setFree]
  diskSize := by simp [ownCopy, Paging.occupy, Paging.recount, Paging.setFree]

theorem current_ownCopy (ram : Ram) : (m.ownCopy pid page frame copy ram).current = m.current := by
  simp [ownCopy, Paging.occupy, Paging.recount, Paging.setFree]

theorem nextPid_ownCopy (ram : Ram) : (m.ownCopy pid page frame copy ram).nextPid = m.nextPid := by
  simp [ownCopy, Paging.occupy, Paging.recount, Paging.setFree]

section
variable (h : Consistent m) (hd : m.processes.find? pid = some d) (hm : d.find? page = some mp)
  (hl : mp.location = .frame frame)
include hd hm hl

theorem mappingsOf_ownCopy (hunused : m.mappingsOf (.frame copy) = 0) (ram : Ram) :
    (m.ownCopy pid page frame copy ram).mappingsOf =
      Function.update (Function.update m.mappingsOf (.frame copy) 1) (.frame frame)
        (m.mappingsOf (.frame frame) - 1) := by
  have hne : m.mappingsOf (.frame frame) ≠ 0 := hl ▸ mappingsOf_ne_zero hd hm
  have hcf : Location.frame copy ≠ .frame frame := fun e => hne (e ▸ hunused)
  funext l
  have hp := Paging.mappingsOf_update (@processes_ownCopy m pid page frame copy ram) hd l
  have hu := Directory.mappingsOf_update hm hl (location_own copy mp) l
  simp only [Function.update_apply]
  by_cases hlf : l = .frame frame
  · subst hlf
    rw [if_pos rfl, if_neg hcf] at hu
    rw [if_pos rfl]
    omega
  · rw [if_neg (Ne.symm hlf)] at hu
    rw [if_neg hlf]
    by_cases hlc : l = .frame copy
    · subst hlc
      rw [if_pos rfl] at hu ⊢
      omega
    · rw [if_neg (Ne.symm hlc)] at hu
      rw [if_neg hlc]
      omega

include h

theorem Consistent.ownCopy (hfree : m.isFree (.frame copy))
    (hshared : 1 < m.mappingsOf (.frame frame)) {ram : Ram}
    (hb : ram.base = m.ram.base) (hs : ram.size = m.ram.size) :
    Consistent (m.ownCopy pid page frame copy ram) := by
  have hunused := h.mappingsOf_of_isFree hfree
  have hcf : Location.frame frame ≠ .frame copy := fun e => by rw [e] at hshared; omega
  refine h.of_books (sameExtent_ownCopy hb hs) ?_ (current_ownCopy ram) (nextPid_ownCopy ram)
    fun q => ?_
  · rw [mappingsOf_ownCopy hd hm hl hunused, PagedMemory.ownCopy, h.refs_eq]
    have hne : Function.update m.mappingsOf (.frame copy) 1 (.frame frame) ≠ 0 := by
      rw [Function.update_of_ne hcf]
      omega
    have hn : m.mappingsOf (.frame frame) - 1 ≠ 0 := by omega
    exact ((h.books.occupy hfree Nat.one_ne_zero).recount hne hn).frame _ _ _ _ _
  · rw [processes_ownCopy, Table.contains_update]

omit h in
theorem RepresentedBy.ownCopy (hv : RepresentedBy name m v) (hc : m.current = some pid)
    (hunused : m.mappingsOf (.frame copy) = 0) (hshared : 1 < m.mappingsOf (.frame frame))
    {ram : Ram} (hbytes : ∀ l, ∀ o < pageSize, { m with ram := ram }.byteAt l o =
      if l = .frame copy then m.byteAt (.frame frame) o else m.byteAt l o) :
    RepresentedBy (Function.update name (.frame copy) v.nextPage)
    (m.ownCopy pid page frame copy ram) (v.privatise page (mp.rename name)) := by
  have hne : m.mappingsOf (.frame frame) ≠ 0 := by omega
  have hpage : v.mappingsOf (mp.rename name).page = m.mappingsOf (.frame frame) := by
    rw [← hv.mappingsOf hne, Mapping.rename, hl]
  have hcurrent : v.current = some pid := hv.current.trans hc
  rw [Virtual.Memory.privatise, if_pos (by omega), Virtual.Memory.updateCurrent_eq hcurrent]
  refine hv.extend hunused ?_ ?_ ?_ ?_ rfl ?_ ?_
  · intro l hl'
    rw [mappingsOf_ownCopy hd hm hl hunused, Function.update_apply, Function.update_apply] at hl'
    by_cases hlf : l = .frame frame
    · exact .inr (hlf ▸ hne)
    · rw [if_neg hlf] at hl'
      by_cases hlc : l = .frame copy
      · exact .inl hlc
      · exact .inr (by rwa [if_neg hlc] at hl')
  · intro l hlc _ o ho
    rw [byteAt_ownCopy, hbytes l o ho, if_neg hlc]
  · dsimp only [Virtual.Memory.changed]
    rw [processes_ownCopy, hv.processes, ← processes_rename_unused hunused v.nextPage]
    refine (Table.map_update _ _ ?_).symm
    intro d' hd'
    obtain rfl : d = d' := Option.some.inj (hd.symm.trans hd')
    refine Table.map_update _ _ ?_
    intro mp' hm'
    rw [own, Mapping.rename, Mapping.rename, Function.update_self]
  · have hcopy :
        (fun o : Fin pageSize => (m.ownCopy pid page frame copy ram).byteAt (.frame copy) o) =
        v.contents (mp.rename name).page := by
      funext o
      rw [byteAt_ownCopy, hbytes _ o o.isLt, if_pos rfl, Mapping.rename, hl, hv.contents _ hne]
    rw [hcopy]
  · rw [current_ownCopy, hc]
    exact hcurrent
  · rw [nextPid_ownCopy]
    exact hv.nextPid

end

/-! ## Either way -/

theorem privatise_run_ownInPlace (hone : ¬ 1 < m.refs (.frame frame)) (hc : m.current = some pid)
    (hd : m.processes.find? pid = some d) :
    (PagedMemory.privatise page frame).run m =
    .ok frame (m.changed pid (·.update page (own frame))) := by
  rw [PagedMemory.privatise, get_bind, if_neg hone, pure_bind, bind_ok (updateCurrent_run hc hd _)]
  rfl

theorem privatise_run_ownCopy (page : Word) {ram : Ram} {count : Nat}
    (hshared : 1 < m.refs (.frame frame))
    (htake : (PagedMemory.takeFrame (m.framePool frame) (some frame)).run m =
      .ok copy (m₀.handOut copy)) (hcopy : (Ram.copyFrame frame copy).run m₀.ram = .ok () ram)
      (hcount : m₀.count? (.frame frame) = some count)
    (hlt : 1 < count) (hne : frame ≠ copy) (hc : m₀.current = some pid)
    (hd : m₀.processes.find? pid = some d) : (PagedMemory.privatise page frame).run m =
    .ok copy (m₀.ownCopy pid page frame copy ram) := by
  let m₁ : PagedMemory := { m₀ with toPaging := m₀.occupy (.frame copy) 1, ram := ram }
  have hcount₁ : m₁.count? (.frame frame) = some count := by
    rw [Paging.count?_occupy, if_neg (by simpa using hne), hcount]
  rw [PagedMemory.privatise, get_bind, if_pos hshared, get_bind, bind_ok htake,
    bind_ok (onRam_ok (by exact hcopy)), bind_ok (track_run_handOut m₀ copy ram 1),
    bind_ok (release_run_recount hcount₁ hlt), tally, modify_bind, pure_bind]
  have hc₁ : m₁.current = some pid := by simpa [m₁, Paging.occupy, Paging.setFree] using hc
  have hd₁ : m₁.processes.find? pid = some d := by
    simpa [m₁, Paging.occupy, Paging.setFree] using hd
  rw [bind_ok (updateCurrent_run (by exact hc₁) (by exact hd₁) _)]
  change EStateM.Result.ok _ _ = _
  simp [m₁, ownCopy, Paging.refs_eq, hcount, Paging.occupy, Paging.recount, Paging.setFree]
  rfl

theorem Consistent.privatise_ok (h : Consistent m) (hc : m.current = some pid)
    (hd : m.processes.find? pid = some d) (hm : d.find? page = some mp)
    (hl : mp.location = .frame frame) (hshared : 1 < m.mappingsOf (.frame frame))
    (hroom : MadeRoom (some frame) m m₀) (hfree : m₀.isFree (.frame copy))
    (htake : (PagedMemory.takeFrame (m.framePool frame) (some frame)).run m =
      .ok copy (m₀.handOut copy)) :
    (PagedMemory.privatise page frame).run m = .ok copy
      (m₀.ownCopy pid page frame copy (m₀.ram.patch (copy.toNat * pageSize)
        (m₀.pageAt (.frame frame)))) := by
  obtain ⟨d₀, hd₀, hm₀⟩ := hroom.find?_pinned hd hm hl
  have h₀ := hroom.consistent h
  have hn₀ : m₀.mappingsOf (.frame frame) = m.mappingsOf (.frame frame) :=
    hroom.mappingsOf_pinned (by omega)
  have hunused := h₀.mappingsOf_of_isFree hfree
  have hfc : frame ≠ copy := fun e => by rw [e] at hn₀ hshared; omega
  have hcopy := h₀.copyFrame (h₀.books.owned (.frame frame) (by omega)) (h₀.books.pooled _ _ hfree)
  exact privatise_run_ownCopy page (by rwa [h.refs_eq]) htake hcopy (h₀.count?_eq (by omega))
    (by omega) hfc
    (hroom.current.trans hc) hd₀

theorem Consistent.privatise_error (h : Consistent m) (hshared : 1 < m.mappingsOf (.frame frame))
    {e : Fault}
    (htake : (PagedMemory.takeFrame (m.framePool frame) (some frame)).run m = .error e m) :
    (PagedMemory.privatise page frame).run m = .error e m := by
  rw [PagedMemory.privatise, get_bind, if_pos (by rwa [h.refs_eq]), get_bind, bind_error htake]

/-- A shared page is copied, exactly if a frame for the copy can be had. -/
theorem Consistent.privatise_shared (h : Consistent m) (hc : m.current = some pid)
    (hd : m.processes.find? pid = some d) (hm : d.find? page = some mp)
    (hl : mp.location = .frame frame) (hshared : 1 < m.mappingsOf (.frame frame)) :
    ((∀ e, ¬ m.Lacks (m.framePool frame) (some frame) e) ∧ ∃ copy m₀, MadeRoom (some frame) m m₀ ∧
        m₀.framePool copy = m.framePool frame ∧ m₀.isFree (.frame copy) ∧
        (PagedMemory.privatise page frame).run m = .ok copy
          (m₀.ownCopy pid page frame copy (m₀.ram.patch (copy.toNat * pageSize)
            (m₀.pageAt (.frame frame))))) ∨
      ∃ e, (PagedMemory.privatise page frame).run m = .error (.resourceExhausted e) m ∧
        m.Lacks (m.framePool frame) (some frame) e := by
  rcases h.takeFrame_exact (m.framePool_ne_disk frame) (some frame) with
    ⟨hnone, copy, m₀, hroom, hpool, hfree, htake⟩ | ⟨e, htake, hlacks⟩
  · exact .inl ⟨hnone, copy, m₀, hroom, hpool, hfree,
      h.privatise_ok hc hd hm hl hshared hroom hfree htake⟩
  · exact .inr ⟨e, h.privatise_error hshared htake, hlacks⟩

/-- The page becomes private, or nothing happens for want of frames and slots. -/
theorem Consistent.privatise (h : Consistent m) (hv : Represents m v) (hc : m.current = some pid)
    (hd : m.processes.find? pid = some d) (hm : d.find? page = some mp)
    (hl : mp.location = .frame frame) {mv : Virtual.Mapping} (hmv : v.find? page = some mv) :
    (∃ target m', (PagedMemory.privatise page frame).run m = .ok target m' ∧
        Follows m m' (v.privatise page mv) ∧ m'.mapping? page = some (own target mp)) ∨
      ∃ e, (PagedMemory.privatise page frame).run m = .error (.resourceExhausted e) m ∧
        m.Exhausted e := by
  by_cases hshared : 1 < m.mappingsOf (.frame frame)
  · rcases h.privatise_shared hc hd hm hl hshared with ⟨-, copy, m₀, hroom, -, hfree, hrun⟩
      | ⟨e, hrun, hlacks⟩
    · obtain ⟨d₀, hd₀, hm₀⟩ := hroom.find?_pinned hd hm hl
      have hc₀ : m₀.current = some pid := hroom.current.trans hc
      obtain ⟨h₀, e₀, name, hv₀⟩ := hroom.follows h hv
      -- room is made by moving other pages: this one is pinned
      rw [← hroom.mappingsOf_pinned (by omega)] at hshared
      have hmv₀ : mv = mp.rename name := by
        have := hv₀.find? page
        rw [mapping?_eq hc₀ hd₀, hm₀, hmv] at this
        exact Option.some.inj this
      have bytes :=
        h₀.byteAt_storeFrame (length_pageAt m₀ (.frame frame)) (h₀.books.pooled _ _ hfree)
      refine .inl ⟨copy, _, hrun, ⟨?_, ?_, Function.update name (.frame copy) v.nextPage, ?_⟩, ?_⟩
      · exact h₀.ownCopy hd₀ hm₀ hl hfree hshared (ByteStore.base_patch ..)
          (ByteStore.size_patch ..)
      · exact e₀.trans (sameExtent_ownCopy (ByteStore.base_patch ..) (ByteStore.size_patch ..))
      · rw [hmv₀]
        refine hv₀.ownCopy hd₀ hm₀ hl hc₀ (h₀.mappingsOf_of_isFree hfree) hshared fun l o ho => ?_
        rw [bytes l ho, getD_pageAt m₀ _ ho]
      · rw [mapping?_eq (by rw [current_ownCopy, hc₀])
          (by rw [processes_ownCopy, Table.find?_update, if_pos rfl, hd₀]; rfl),
          Table.find?_update, if_pos rfl, hm₀]
        rfl
    · exact .inr ⟨e, hrun, h.exhausted_of_lacks (m.framePool_ne_disk frame) hlacks⟩
  · obtain ⟨name, hv⟩ := hv
    have hmv' : mv = mp.rename name := by
      have := hv.find? page
      rw [mapping?_eq hc hd, hm, hmv] at this
      exact Option.some.inj this
    refine .inl ⟨frame, _, privatise_run_ownInPlace (by rwa [h.refs_eq]) hc hd,
      ⟨?_, ?_, name, ?_⟩, ?_⟩
    · exact h.changed hd (mappingsOf_update_own hm hl)
    · exact ⟨rfl, rfl, rfl, rfl, rfl⟩
    · rw [hmv']
      exact hv.ownInPlace hd hm hl hc (by omega)
    · rw [mapping?_eq (by exact hc) (find?_changed hd _), Table.find?_update, if_pos rfl, hm]
      rfl

end PagedMachine.PagedMemory
