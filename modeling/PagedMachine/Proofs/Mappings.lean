import PagedMachine.Proofs.Access
import PagedMachine.Proofs.Processes

/-!
# Mappings come and go

Every operation on the mappings of the current process does what virtual memory
does. One that needs a frame or a slot may find none; then it has done nothing
that shows. A shared page is counted once more, for which there must be room.
-/

namespace PagedMachine.PagedMemory

variable {m m' m₀ : PagedMemory} {v : Virtual.Memory} {name : Location → Nat}
    {pid page frame : Word} {d : Directory} {mp : Mapping}

theorem mappingOf_ok (hm : m.mappingOf page = .ok mp) :
    ∃ pid d, m.current = some pid ∧ m.processes.find? pid = some d ∧ d.find? page = some mp := by
  rw [Paging.mappingOf] at hm
  cases hcheck : Paging.checkPage page with
  | error e => simp [hcheck, bind, Except.bind] at hm
  | ok _ =>
    cases hcur : m.currentDirectory with
    | error e => simp [hcheck, hcur, bind, Except.bind] at hm
    | ok d =>
      obtain ⟨pid, hc, hd⟩ := currentDirectory_ok.mp hcur
      refine ⟨pid, d, hc, hd, ?_⟩
      cases hf : d.find? page with
      | none => simp [hcheck, hcur, bind, Except.bind, hf] at hm
      | some mp' => simpa [hcheck, hcur, bind, Except.bind, hf] using hm

/-! ## Removed mappings -/

theorem SameOutsideBooks.changed (h : SameOutsideBooks m m') (pid : Word)
    (f : Directory → Directory) : SameOutsideBooks (m.changed pid f) (m'.changed pid f) where
  processes := by rw [PagedMemory.changed, PagedMemory.changed, h.processes]
  current := h.current
  nextPid := h.nextPid
  ram := h.ram
  disk := h.disk
  range := h.range

theorem mappingsOf_le (hd : m.processes.find? pid = some d) (l : Location) :
    d.mappingsOf l ≤ m.mappingsOf l :=
  Table.le_sum hd fun d => d.mappingsOf l

/-- The books catch up with a directory that maps other pages than before, but no new ones. -/
theorem Consistent.follows_changed (f : Directory → Directory)
    (g : Virtual.Directory → Virtual.Directory) (h : Consistent m) (hv : RepresentedBy name m v)
    (hd : m.processes.find? pid = some d) (hg : (f d).rename name = g (d.rename name))
    (hsub : ∀ l, (f d).mappingsOf l ≠ 0 → m.mappingsOf l ≠ 0)
    (hsame : SameOutsideBooks (m.changed pid f) m')
    (hbooks : Books m'.toPaging (m.changed pid f).mappingsOf) : Follows m m' (v.changed pid g) := by
  have e := sameExtent_changed m pid f
  refine ⟨hsame.consistent (h.layout.of_sameExtent e) ?_ ?_ hbooks, e.trans hsame.extent, name,
    hsame.representedBy ?_⟩
  · intro q hq
    rw [PagedMemory.changed, Table.contains_update]
    exact h.current q hq
  · intro q hq
    rw [PagedMemory.changed, Table.contains_update] at hq
    exact h.fresh q hq
  · exact hv.changed hd hg hsub

theorem Consistent.removePage (h : Consistent m) (hv : Represents m v) (page : Word) :
    Agrees (PagedMemory.removePage page) (Virtual.removePage page) m v fun _ _ _ _ => True := by
  obtain ⟨name, hv⟩ := hv
  refine Agrees.get_bind ((Agrees.outcome h ⟨name, hv⟩ (hv.mappingOf page) mappingOf_kind).bind ?_)
  rintro mp _ m v - ⟨hm, rfl, rfl, rfl⟩
  obtain ⟨pid, d, hc, hd, hmp⟩ := mappingOf_ok hm
  have hone := Directory.mappingsOf_erase hmp rfl
  have hmaps := mappingsOf_changed (f := (·.erase page)) hd
  have hne : m.mappingsOf mp.location ≠ 0 := mappingsOf_ne_zero hd hmp
  have hbooks : Books (m.changed pid (·.erase page)).toPaging m.mappingsOf :=
    h.books.frame _ _ _ _ _
  obtain ⟨m₂, hrun, hbooks₂, hsame⟩ := release_run hbooks hne
  refine .of_forced (c := ()) ((bind_ok (updateCurrent_run hc hd _)).trans hrun)
    ?_ (h.follows_changed (·.erase page) (·.erase page) hv hd
    (Table.map_erase _ d page) (fun l hl => ?_) hsame (hbooks₂.congr fun l => ?_)) trivial
  · exact ⟨rfl, (Virtual.Memory.updateCurrent_eq (hv.current.trans hc) _).symm⟩
  · have := hone l
    have := mappingsOf_le hd l
    omega
  · have := hone l
    have := hmaps l
    rw [update_pred]
    by_cases hl : l = mp.location
    · subst hl
      rw [if_pos rfl] at *
      omega
    · rw [if_neg hl]
      rw [if_neg (Ne.symm hl)] at *
      omega

theorem Consistent.removeAll (h : Consistent m) (hv : Represents m v) :
    Agrees PagedMemory.removeAll Virtual.removeAll m v fun _ _ _ _ => True := by
  obtain ⟨name, hv⟩ := hv
  refine Agrees.get_bind
    ((Agrees.outcome h ⟨name, hv⟩ hv.currentDirectory currentDirectory_kind).bind ?_)
  rintro d _ m v - ⟨hd, rfl, rfl, rfl⟩
  obtain ⟨pid, hc, hd⟩ := currentDirectory_ok.mp hd
  have hmaps := mappingsOf_changed (f := fun _ => .empty) hd
  have hbooks : Books (m.changed pid fun _ => .empty).toPaging m.mappingsOf :=
    h.books.frame _ _ _ _ _
  obtain ⟨m₂, hrun, hbooks₂, hsame⟩ := releaseAll_run d.locations hbooks fun l =>
    Table.le_sum hd fun d => d.mappingsOf l
  refine .of_forced (c := ())
    ((bind_ok (updateCurrent_run hc hd _)).trans hrun) ?_ (h.follows_changed (fun _ => .empty)
    (fun _ => .empty) hv hd rfl (fun l hl => absurd rfl hl) hsame (hbooks₂.congr fun l =>
      ?_)) trivial
  · exact ⟨rfl, (Virtual.Memory.updateCurrent_eq (hv.current.trans hc) _).symm⟩
  · have := hmaps l
    have hz : Directory.mappingsOf .empty l = 0 := rfl
    rw [Directory.mappingsOf] at this
    omega

/-! ## New pages -/

def added (m : PagedMemory) (pid page frame : Word) (mp : Mapping) (ram : Ram) : PagedMemory :=
  ({ m with toPaging := m.occupy (.frame frame) 1, ram := ram } : PagedMemory).changed pid
    (·.insert page mp)

theorem processes_added (ram : Ram) :
    (m.added pid page frame mp ram).processes = m.processes.update pid (·.insert page mp) := by
  simp [added, changed, Paging.occupy, Paging.setFree]

theorem current_added (ram : Ram) : (m.added pid page frame mp ram).current = m.current := by
  simp [added, changed, Paging.occupy, Paging.setFree]

theorem nextPid_added (ram : Ram) : (m.added pid page frame mp ram).nextPid = m.nextPid := by
  simp [added, changed, Paging.occupy, Paging.setFree]

theorem byteAt_added (ram : Ram) (l : Location) (o : Nat) :
    (m.added pid page frame mp ram).byteAt l o = { m with ram := ram }.byteAt l o := by
  cases l
  all_goals simp [added, changed, Paging.occupy, Paging.setFree, PagedMemory.byteAt]

theorem sameExtent_added {ram : Ram} (hb : ram.base = m.ram.base) (hs : ram.size = m.ram.size) :
    SameExtent m (m.added pid page frame mp ram) where
  range := m.range_occupy (.frame frame) 1
  ramBase := hb
  ramSize := hs
  diskBase := by simp [added, changed, Paging.occupy, Paging.setFree]
  diskSize := by simp [added, changed, Paging.occupy, Paging.setFree]

section
variable (hd : m.processes.find? pid = some d) (hm : d.find? page = none)
    (hl : mp.location = .frame frame)
include hd hm hl

theorem mappingsOf_added (hunused : m.mappingsOf (.frame frame) = 0) (ram : Ram) :
    (m.added pid page frame mp ram).mappingsOf = Function.update m.mappingsOf (.frame frame) 1 := by
  funext l
  have hp := Paging.mappingsOf_update (@processes_added m pid page frame mp ram) hd l
  have hi := Directory.mappingsOf_insert hm hl l
  rw [Function.update_apply]
  by_cases hlf : l = .frame frame
  · subst hlf
    rw [if_pos rfl] at hi ⊢
    omega
  · rw [if_neg (Ne.symm hlf)] at hi
    rw [if_neg hlf]
    omega

variable (h : Consistent m) (hfree : m.isFree (.frame frame))
include h hfree

theorem Consistent.added {ram : Ram} (hb : ram.base = m.ram.base) (hs : ram.size = m.ram.size) :
    Consistent (m.added pid page frame mp ram) := by
  refine h.of_books (sameExtent_added hb hs) ?_ (current_added ram) (nextPid_added ram) fun q => ?_
  · rw [mappingsOf_added hd hm hl (h.mappingsOf_of_isFree hfree)]
    exact (h.books.occupy hfree Nat.one_ne_zero).frame _ _ _ _ _
  · rw [processes_added, Table.contains_update]

theorem RepresentedBy.added (hv : RepresentedBy name m v) (hc : m.current = some pid) {ram : Ram}
    (hbytes : ∀ l, ∀ o < pageSize,
      { m with ram := ram }.byteAt l o = if l = .frame frame then 0 else m.byteAt l o) :
    RepresentedBy (Function.update name (.frame frame) v.nextPage) (m.added pid page frame mp ram)
      { v.updateCurrent (·.insert page ⟨v.nextPage, mp.permissions, mp.copyOnWrite⟩) with
        contents := Function.update v.contents v.nextPage fun _ => 0
        nextPage := v.nextPage + 1 } := by
  have hunused := h.mappingsOf_of_isFree hfree
  rw [Virtual.Memory.updateCurrent_eq (hv.current.trans hc)]
  refine hv.extend hunused ?_ ?_ ?_ ?_ rfl ?_ ?_
  · intro l hl'
    rw [mappingsOf_added hd hm hl hunused, Function.update_apply] at hl'
    by_cases hlf : l = .frame frame
    · exact .inl hlf
    · exact .inr (by rwa [if_neg hlf] at hl')
  · intro l hlf _ o ho
    rw [byteAt_added, hbytes l o ho, if_neg hlf]
  · dsimp only [Virtual.Memory.changed]
    rw [processes_added, hv.processes, ← processes_rename_unused hunused v.nextPage]
    refine (Table.map_update _ _ ?_).symm
    intro d' _
    rw [Directory.rename, Table.map_insert, Mapping.rename, hl, Function.update_self]
    rfl
  · have hzero : (fun o : Fin pageSize => (m.added pid page frame mp ram).byteAt (.frame frame) o) =
        fun _ => 0 := by
      funext o
      rw [byteAt_added, hbytes _ o o.isLt, if_pos rfl]
    rw [hzero]
  · rw [current_added]
    exact hv.current
  · rw [nextPid_added]
    exact hv.nextPid

end

theorem length_zeroPage : zeroPage.length = pageSize := List.length_replicate ..

theorem getD_zeroPage {o : Nat} (ho : o < pageSize) : zeroPage.getD o 0 = 0 := by
  simp [zeroPage, List.getD, ho]

def newPage (page : Word) (permissions : Permissions) (copyOnWrite : Bool) : Paged Word := do
  let frame ← takeFrame permissions.pool none
  onRam (Ram.writeFrame frame zeroPage)
  track frame 1
  updateCurrent (·.insert page ⟨.frame frame, permissions, copyOnWrite⟩)
  return frame

theorem newPage_run {permissions : Permissions} {copyOnWrite : Bool} {ram : Ram}
    (htake : (PagedMemory.takeFrame permissions.pool none).run m = .ok frame (m₀.handOut frame))
    (hwrite : (Ram.writeFrame frame zeroPage).run m₀.ram = .ok () ram) (hc : m₀.current = some pid)
    (hd : m₀.processes.find? pid = some d) : (newPage page permissions copyOnWrite).run m =
      .ok frame (m₀.added pid page frame ⟨.frame frame, permissions, copyOnWrite⟩ ram) := by
  have hc₁ :
      ({ m₀ with toPaging := m₀.occupy (.frame frame) 1, ram := ram } : PagedMemory).current =
      some pid := by
    simpa [Paging.occupy, Paging.setFree] using hc
  have hd₁ : ({ m₀ with toPaging := m₀.occupy (.frame frame) 1, ram := ram } :
      PagedMemory).processes.find? pid = some d := by
    simpa [Paging.occupy, Paging.setFree] using hd
  rw [newPage, bind_ok htake, bind_ok (onRam_ok (by exact hwrite)),
    bind_ok (track_run_handOut m₀ frame ram 1), bind_ok (updateCurrent_run hc₁ hd₁ _)]
  rfl

theorem addPage_run {permissions : Permissions} {copyOnWrite : Bool}
    (hcheck : Paging.checkPage page = .ok ()) (hcur : m.currentDirectory = .ok d)
    (hmapped : d.contains page = false) : (PagedMemory.addPage page permissions copyOnWrite).run m =
    (newPage page permissions copyOnWrite).run m := by
  rw [PagedMemory.addPage, bind_ok (outcome_ok hcheck m), get_bind, bind_ok (outcome_ok hcur m),
    hmapped, if_neg Bool.false_ne_true]
  rfl

/-- A page is mapped, exactly if a frame for it can be had. -/
theorem Consistent.newPage_exact (h : Consistent m) (hc : m.current = some pid)
    (hd : m.processes.find? pid = some d) (hm : d.find? page = none) (permissions : Permissions)
    (copyOnWrite : Bool) :
    ((∀ e, ¬ m.Lacks permissions.pool none e) ∧ ∃ frame m₀, MadeRoom none m m₀ ∧
        m₀.framePool frame = permissions.pool ∧ m₀.isFree (.frame frame) ∧
        (newPage page permissions copyOnWrite).run m = .ok frame
          (m₀.added pid page frame ⟨.frame frame, permissions, copyOnWrite⟩
            (m₀.ram.patch (frame.toNat * pageSize) zeroPage))) ∨
      ∃ e, (newPage page permissions copyOnWrite).run m = .error (.resourceExhausted e) m ∧
        m.Lacks permissions.pool none e := by
  rcases h.takeFrame_exact (pool_ne_disk permissions) none with
    ⟨hnone, frame, m₀, hroom, hpool, hfree, htake⟩ | ⟨e, htake, hlacks⟩
  · obtain ⟨d₀, hd₀, -⟩ := hroom.find?_none hd hm
    have h₀ := hroom.consistent h
    have hwrite :=
      Ram.writeFrame_ok h₀.layout.ram
        (h₀.layout.frame_lt (h₀.books.pooled _ _ hfree)) length_zeroPage
    exact .inl ⟨hnone, frame, m₀, hroom, hpool, hfree,
      newPage_run htake hwrite (hroom.current.trans hc) hd₀⟩
  · exact .inr ⟨e, bind_error htake, hlacks⟩

theorem Consistent.addPage (h : Consistent m) (hv : Represents m v) (page : Word)
    (permissions : Permissions) (copyOnWrite : Bool) :
    Agrees (PagedMemory.addPage page permissions copyOnWrite)
    (Virtual.addPage page permissions copyOnWrite) m v fun _ _ _ _ => True := by
  have hcheck : Paging.checkPage page = (Paging.checkPage page).map id := by
    cases Paging.checkPage page <;> rfl
  refine (Agrees.outcome h hv hcheck checkPage_kind).bind ?_
  rintro _ _ m v - ⟨-, -, rfl, rfl⟩
  obtain ⟨name, hname⟩ := hv
  have hv : Represents m v := ⟨name, hname⟩
  refine Agrees.get_bind
    ((Agrees.outcome h hv hname.currentDirectory currentDirectory_kind).bind ?_)
  rintro d _ m v - ⟨hcur, rfl, rfl, rfl⟩
  rw [Directory.rename, Table.contains_map]
  by_cases hmapped : d.contains page = true
  · rw [if_pos hmapped, if_pos hmapped]
    exact .fault_bind (.refl h hv) rfl
  · rw [if_neg hmapped, if_neg hmapped]
    obtain ⟨pid, hc, hd⟩ := currentDirectory_ok.mp hcur
    have hm : d.find? page = none := Table.contains_eq_false.mp (Bool.eq_false_iff.mpr hmapped)
    rcases h.newPage_exact hc hd hm permissions copyOnWrite with
      ⟨-, frame, m₀, hroom, -, hfree, hrun⟩ | ⟨e, hrun, hlacks⟩
    · obtain ⟨h₀, e₀, name₀, hv₀⟩ := hroom.follows h hv
      obtain ⟨d₀, hd₀, hm₀⟩ := hroom.find?_none hd hm
      have bytes := h₀.byteAt_storeFrame length_zeroPage (h₀.books.pooled _ _ hfree)
      have hrep :
          RepresentedBy _ (m₀.added pid page frame ⟨.frame frame, permissions, copyOnWrite⟩ _) _ :=
        hv₀.added hd₀ hm₀ rfl h₀ hfree (hroom.current.trans hc) fun l o ho => by
          rw [bytes l ho, getD_zeroPage ho]
      refine .of_forced (c := ()) hrun ?_ ⟨h₀.added hd₀ hm₀ rfl hfree (ByteStore.base_patch ..)
        (ByteStore.size_patch ..),
        e₀.trans (sameExtent_added (ByteStore.base_patch ..) (ByteStore.size_patch ..)),
        _, hrep⟩ trivial
      exact Behaviour.allows_claim_bind.mpr (.inl ⟨rfl, rfl⟩)
    · refine .inr ⟨_, m, v, hrun, ?_, .refl h hv,
        .exhausted (h.exhausted_of_lacks (pool_ne_disk permissions) hlacks)⟩
      exact Behaviour.allows_claim_bind.mpr (.inr ⟨e, rfl, rfl⟩)

/-! ## Shared pages -/

def sharedBy (copyOnWrite : Bool) (mp : Mapping) : Mapping :=
  if copyOnWrite ∧ mp.permissions.write then { mp with copyOnWrite := true } else mp

theorem location_sharedBy (copyOnWrite : Bool) (mp : Mapping) :
    (sharedBy copyOnWrite mp).location = mp.location := by
  unfold sharedBy
  split <;> rfl

theorem rename_sharedBy (copyOnWrite : Bool) (mp : Mapping) :
    (sharedBy copyOnWrite mp).rename name = Virtual.sharedBy copyOnWrite (mp.rename name) := by
  by_cases hflag : copyOnWrite = true ∧ mp.permissions.write = true
  · rw [sharedBy, Virtual.sharedBy, if_pos hflag, if_pos (by exact hflag)]
    rfl
  · rw [sharedBy, Virtual.sharedBy, if_neg hflag, if_neg (by exact hflag)]

/-- A mapping takes the place of another one of its location. -/
theorem mappingsOf_insert_of_location {mp' : Mapping} (hm : d.find? page = some mp)
    (hl : mp'.location = mp.location) (l : Location) :
    Directory.mappingsOf (d.insert page mp') l = d.mappingsOf l := by
  have hu := Table.update_eq_insert hm fun _ => mp'
  rw [← hu]
  exact Nat.add_right_cancel (Directory.mappingsOf_update hm rfl hl l)

/-- The target of a share is still not mapped when the source has been flagged. -/
theorem find?_target {cur q source target : Word} {dc : Directory} (mp' : Mapping)
    (hdc : m.processes.find? cur = some dc) (ht : dc.find? target = none)
    (hd : m.processes.find? q = some d) (hm : d.find? source = some mp) :
    ∃ d', (m.changed q (·.insert source mp')).processes.find? cur = some d' ∧
      d'.find? target = none := by
  by_cases hq : cur = q
  · subst hq
    obtain rfl : dc = d := Option.some.inj (hdc.symm.trans hd)
    refine ⟨_, find?_changed hd _, ?_⟩
    have hne : target ≠ source := fun e => by rw [e, hm] at ht; cases ht
    rw [Table.find?_insert, if_neg hne, ht]
  · refine ⟨dc, ?_, ht⟩
    rw [PagedMemory.changed, Table.find?_update, if_neg hq, hdc]

section
variable {cur target : Word} {dc : Directory} {l : Location} (hc : m.current = some cur)
  (hdc : m.processes.find? cur = some dc) (ht : dc.find? target = none) (hl : mp.location = l)
include hc hdc ht hl

/-- How often the page is mapped then, whether or not that can be counted. -/
theorem share_total : ∃ m',
    (do retain l; updateCurrent (·.insert target mp) : Paged Unit).run m = .ok () m' ∧
      ∀ k, m'.mappingsOf k = (if l = k then 1 else 0) + m.mappingsOf k := by
  obtain ⟨m₂, hretain, hsame⟩ := retain_total m l
  have hc₂ : m₂.current = some cur := hsame.current.trans hc
  have hd₂ : m₂.processes.find? cur = some dc := by rw [hsame.processes, hdc]
  refine ⟨_, (bind_ok hretain).trans (updateCurrent_run hc₂ hd₂ _), fun k => ?_⟩
  have hmaps := mappingsOf_changed (f := (·.insert target mp)) hd₂ k
  have hone := Directory.mappingsOf_insert ht hl k
  rw [hsame.mappingsOf] at hmaps
  omega

theorem Consistent.share (h : Consistent m) (hv : RepresentedBy name m v)
    (hmapped : m.mappingsOf l ≠ 0) (hmax : m.mappingsOf l + 1 ≤ maxRefs) : ∃ m',
    (do retain l; updateCurrent (·.insert target mp) : Paged Unit).run m = .ok () m' ∧
      Follows m m' (v.changed cur (·.insert target (mp.rename name))) := by
  obtain ⟨m₂, hretain, hbooks, hsame⟩ := retain_run h.books hmapped hmax
  have hc₂ : m₂.current = some cur := hsame.current.trans hc
  have hd₂ : m₂.processes.find? cur = some dc := by rw [hsame.processes, hdc]
  have hmaps := mappingsOf_changed (f := (·.insert target mp)) hdc
  have hone := Directory.mappingsOf_insert ht hl
  refine ⟨_, (bind_ok hretain).trans (updateCurrent_run hc₂ hd₂ _),
    h.follows_changed (·.insert target mp)
    (·.insert target (mp.rename name)) hv hdc (Table.map_insert _ dc target mp) (fun k hk => ?_)
      (hsame.changed cur _) ((hbooks.frame _ _ _ _ _).congr fun k => ?_)⟩
  · have := hone k
    have := mappingsOf_le hdc k
    by_cases hlk : l = k
    · exact hlk ▸ hmapped
    · rw [if_neg hlk] at *
      omega
  · have := hone k
    have := hmaps k
    rw [update_succ]
    by_cases hlk : l = k
    · subst hlk
      rw [if_pos rfl] at *
      omega
    · rw [if_neg (Ne.symm hlk)]
      rw [if_neg hlk] at *
      omega

end

theorem sharePage_run (copyOnWrite : Bool) {cur q source target : Word} {dc : Directory}
    (hs : Paging.checkPage source = .ok ()) (hcheck : Paging.checkPage target = .ok ())
    (hc : m.current = some cur) (hdc : m.processes.find? cur = some dc)
    (ht : dc.contains target = false) (hd : m.processes.find? q = some d)
    (hm : d.find? source = some mp) : (PagedMemory.sharePage q source target copyOnWrite).run m =
      (do
        retain (sharedBy copyOnWrite mp).location
        updateCurrent (·.insert target (sharedBy copyOnWrite mp)) : Paged Unit).run
        (m.changed q (·.insert source (sharedBy copyOnWrite mp))) := by
  rw [PagedMemory.sharePage, bind_ok (outcome_ok hs m), bind_ok (outcome_ok hcheck m), get_bind,
    bind_ok (outcome_ok (currentDirectory_ok.mpr ⟨cur, hc, hdc⟩) m)]
  simp only [ht, Bool.false_eq_true, if_false]
  rw [get_bind]
  simp only [hd, hm]
  rfl

/-- The source gets its new form, which the books do not see, and then the target is mapped. -/
theorem Consistent.shareMapped {cur q source target : Word} {dc : Directory} (h : Consistent m)
    (hv : RepresentedBy name m v) (hc : m.current = some cur)
    (hdc : m.processes.find? cur = some dc) (ht : dc.find? target = none)
    (hd : m.processes.find? q = some d) (hm : d.find? source = some mp) (copyOnWrite : Bool)
    (hbound : ∀ m', (do
        retain (sharedBy copyOnWrite mp).location
        updateCurrent (·.insert target (sharedBy copyOnWrite mp)) : Paged Unit).run
        (m.changed q (·.insert source (sharedBy copyOnWrite mp))) = .ok () m' → WithinCounts m') :
    ∃ m', (do
        retain (sharedBy copyOnWrite mp).location
        updateCurrent (·.insert target (sharedBy copyOnWrite mp)) : Paged Unit).run
        (m.changed q (·.insert source (sharedBy copyOnWrite mp))) = .ok () m' ∧
      Follows m m'
        ((v.changed q (·.insert source ((sharedBy copyOnWrite mp).rename name))).changed cur
        (·.insert target ((sharedBy copyOnWrite mp).rename name))) := by
  have hl := location_sharedBy copyOnWrite mp
  have hsame := mappingsOf_insert_of_location hm hl
  let f : Directory → Directory := (·.insert source (sharedBy copyOnWrite mp))
  have h₁ : Consistent (m.changed q f) := h.changed hd hsame
  have hmaps₁ : (m.changed q f).mappingsOf = m.mappingsOf := mappingsOf_changed_eq hd hsame
  have hv₁ : RepresentedBy name (m.changed q f)
      (v.changed q (·.insert source ((sharedBy copyOnWrite mp).rename name))) := by
    refine hv.changed hd (Table.map_insert _ d source (sharedBy copyOnWrite mp)) fun l hl => ?_
    rw [hsame] at hl
    have := mappingsOf_le hd l
    omega
  obtain ⟨d', hd', ht'⟩ := find?_target (sharedBy copyOnWrite mp) hdc ht hd hm
  have hmapped : (m.changed q f).mappingsOf (sharedBy copyOnWrite mp).location ≠ 0 := by
    rw [hmaps₁, hl]
    exact mappingsOf_ne_zero hd hm
  -- the bound speaks of the state that is left, so that comes first
  obtain ⟨m', htotal, hmaps⟩ :=
    share_total (by exact hc) hd' ht' (l := (sharedBy copyOnWrite mp).location) rfl
  have hmax := hbound m' htotal (sharedBy copyOnWrite mp).location
  rw [hmaps, if_pos rfl, Nat.add_comm] at hmax
  obtain ⟨m₂, hrun, hfollows⟩ := h₁.share (by exact hc) hd' ht' rfl hv₁ hmapped hmax
  exact ⟨m₂, hrun, hfollows.consistent, (sameExtent_changed m q f).trans hfollows.extent,
    hfollows.represents⟩

theorem Consistent.sharePage (h : Consistent m) (hv : Represents m v) (q source target : Word)
    (copyOnWrite : Bool)
    (hbound : ∀ m', (PagedMemory.sharePage q source target copyOnWrite).run m = .ok () m' →
      WithinCounts m') :
    Agrees (PagedMemory.sharePage q source target copyOnWrite)
    (Virtual.sharePage q source target copyOnWrite) m v fun _ _ _ _ => True := by
  have hcheck : ∀ page, Paging.checkPage page = (Paging.checkPage page).map id := by
    intro page
    cases Paging.checkPage page <;> rfl
  refine (Agrees.outcome h hv (hcheck source) checkPage_kind).bind ?_
  rintro _ _ m v - ⟨hs, -, rfl, rfl⟩
  refine (Agrees.outcome h hv (hcheck target) checkPage_kind).bind ?_
  rintro _ _ m v - ⟨hcheckt, -, rfl, rfl⟩
  obtain ⟨name, hname⟩ := hv
  have hv : Represents m v := ⟨name, hname⟩
  refine Agrees.get_bind
    ((Agrees.outcome h hv hname.currentDirectory currentDirectory_kind).bind ?_)
  rintro dc _ m v - ⟨hcur, rfl, rfl, rfl⟩
  obtain ⟨cur, hc, hdc⟩ := currentDirectory_ok.mp hcur
  rw [Directory.rename, Table.contains_map]
  cases ht : dc.contains target with
  | true => exact .fault_bind (.refl h hv) rfl
  | false =>
    refine Agrees.get_bind ?_
    rw [hname.find?_processes]
    cases hd : m.processes.find? q with
    | none => exact .fault (.refl h hv) rfl
    | some d =>
      dsimp only [Option.map_some]
      rw [Directory.rename, Table.find?_map]
      cases hm : d.find? source with
      | none => exact .fault (.refl h hv) rfl
      | some mp =>
        have ht' : dc.find? target = none := Table.contains_eq_false.mp ht
        have hrun := sharePage_run copyOnWrite hs hcheckt hc hdc ht hd hm
        obtain ⟨m', hrun', hfollows⟩ :=
          h.shareMapped hname hc hdc ht' hd hm copyOnWrite fun m' hm' =>
          hbound m' (hrun.trans hm')
        refine .of_forced (c := ()) hrun' ?_ hfollows trivial
        have hcv : (v.changed q (·.insert source ((sharedBy copyOnWrite mp).rename name))).current =
            some cur :=
          hname.current.trans hc
        rw [← Virtual.Memory.updateCurrent_eq hcv, rename_sharedBy]
        exact Behaviour.allows_modify_bind.mpr ⟨rfl, rfl⟩

/-! ## Pages moved on request -/

theorem Consistent.pageOut (h : Consistent m) (hv : Represents m v) (page : Word) :
    Agrees (PagedMemory.pageOut page) (Virtual.pageOut page) m v fun _ _ _ _ => True := by
  obtain ⟨name, hname⟩ := hv
  have hv : Represents m v := ⟨name, hname⟩
  refine Agrees.get_bind ((Agrees.outcome h hv (hname.mappingOf page) mappingOf_kind).bind ?_)
  rintro mp _ m v - ⟨hm, rfl, rfl, rfl⟩
  obtain ⟨pid, d, hc, hd, hmp⟩ := mappingOf_ok hm
  cases hl : mp.location with
  | slot slot => exact .of_forced rfl ⟨rfl, .inl rfl⟩ (.refl h hv) trivial
  | frame frame =>
    have hf : m.mappingsOf (.frame frame) ≠ 0 := hl ▸ mappingsOf_ne_zero hd hmp
    rcases h.evict hf with ⟨slot, m', hrun, hr⟩ | ⟨hnone, hrun⟩
    · exact .of_forced hrun ⟨rfl, .inl rfl⟩ (hr.follows h hv) trivial
    · exact .inr ⟨_, m, v, hrun, ⟨rfl, .inr ⟨_, rfl⟩⟩, .refl h hv, .exhausted hnone⟩

end PagedMachine.PagedMemory
