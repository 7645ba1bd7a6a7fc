import PagedMachine.Proofs.Likeness
import PagedMachine.Proofs.Separation

/-!
# Two memories in step

Whatever a user program reads, or causes to be moved or copied, is a user page. In
two memories that look alike it is the same page with the same bytes, so every step
of an access has the same answer in both and leaves them alike. And no kernel page
moves or changes.
-/

namespace PagedMachine

namespace PagedMemory

variable {m m' m₁ m₂ : PagedMemory} {pid page frame slot : Word} {d : Directory} {mp : Mapping}
    {α β : Type}

/-! ## Kernel pages that are left alone -/

/-- Every kernel page is where it was, with the bytes it had. -/
def KernelKept (m m' : PagedMemory) : Prop :=
  ∀ pid page mp, m.mappingIn? pid page = some mp → mp.permissions.kernel = true →
    m'.mappingIn? pid page = some mp ∧ ∀ o < pageSize,
    m'.byteAt mp.location o = m.byteAt mp.location o

theorem KernelKept.refl (m : PagedMemory) : KernelKept m m := fun _ _ _ hm _ => ⟨hm, fun _ _ => rfl⟩

theorem KernelKept.trans {m'' : PagedMemory} (h : KernelKept m m') (h' : KernelKept m' m'') :
    KernelKept m m'' := by
  intro pid page mp hm hk
  obtain ⟨hm₁, hbytes⟩ := h pid page mp hm hk
  obtain ⟨hm₂, hbytes'⟩ := h' pid page mp hm₁ hk
  exact ⟨hm₂, fun o ho => (hbytes' o ho).trans (hbytes o ho)⟩

theorem maps_of_mappingIn? (hm : m.mappingIn? pid page = some mp) : Maps m.processes mp := by
  obtain ⟨d, hd, hmp⟩ := mappingIn?_some.mp hm
  exact ⟨pid, d, page, hd, hmp⟩

theorem kernel_eq_false {p : Permissions} (h : p.pool = .user) : p.kernel = false := by
  cases hk : p.kernel with
  | false => rfl
  | true => simp [Permissions.pool, hk] at h

theorem kernelKept_with_counters (counters : PagingCounters) :
    KernelKept m { m with counters := counters } := by
  refine fun _ _ mp hm _ => ⟨hm, fun _ _ => ?_⟩
  cases mp.location <;> rfl

theorem Relocates.kernelKept {source target : Location} (hr : Relocates source target m m')
    (hsource : ∀ mp, Maps m.processes mp → mp.location = source → mp.permissions.kernel = false) :
    KernelKept m m' := by
  intro pid page mp hm hk
  have hmaps := maps_of_mappingIn? hm
  obtain ⟨d, hd, hmp⟩ := mappingIn?_some.mp hm
  have hne : mp.location ≠ source := fun hl => by simp [hsource mp hmaps hl] at hk
  have hmapped := mappingsOf_of_maps hmaps
  refine ⟨mappingIn?_some.mpr ⟨_, hr.find? hd, find?_repoint_of_ne hmp hne⟩,
    hr.kept _ (fun hl => ?_) hmapped⟩
  exact hmapped (hl ▸ hr.unused)

theorem Sound.kernelKept_movedOut (h : Sound m) (huser : m.framePool frame = .user)
    (hr : Relocates (.frame frame) (.slot slot) m m') : KernelKept m m' :=
  hr.kernelKept fun mp hmp hl =>
    kernel_eq_false ((h.housed.resident mp frame hmp hl).symm.trans huser)

theorem Sound.kernelKept_movedIn (h : Sound m) (hmp : Maps m.processes mp)
    (hl : mp.location = .slot slot) (huser : mp.permissions.kernel = false)
    (hr : Relocates (.slot slot) (.frame frame) m m') : KernelKept m m' :=
  hr.kernelKept fun mp' hmp' hl' => by
    rw [← h.housed.agree mp mp' hmp hmp' (hl.trans hl'.symm), huser]

/-- A user page gets a frame of its own, where no page was. -/
theorem kernelKept_own {target : Word}
    (hp : m'.processes = m.processes.update pid (·.update page (own target)))
    (hd : m.processes.find? pid = some d) (hm : d.find? page = some mp)
    (huser : mp.permissions.kernel = false)
    (hbytes : ∀ l, m.mappingsOf l ≠ 0 → ∀ o < pageSize, m'.byteAt l o = m.byteAt l o) :
    KernelKept m m' := by
  intro q page' mp' hm' hk
  refine ⟨?_, hbytes _ (mappingsOf_of_maps (maps_of_mappingIn? hm'))⟩
  have hother : ¬ (q = pid ∧ page' = page) := by
    rintro ⟨rfl, rfl⟩
    obtain rfl : mp = mp' := Option.some.inj ((mappingIn?_some.mpr ⟨d, hd, hm⟩).symm.trans hm')
    simp [huser] at hk
  rw [mappingIn?_update hp hd (find?_update_own hm target), if_neg hother]
  exact hm'

theorem Sound.kernelKept_ownCopy {copy : Word} (h : Sound m) (hfree : m.isFree (.frame copy))
    (hd : m.processes.find? pid = some d) (hm : d.find? page = some mp)
    (huser : mp.permissions.kernel = false) :
    KernelKept m
      (m.ownCopy pid page frame copy (m.ram.patch (copy.toNat * pageSize)
        (m.pageAt (.frame frame)))) := by
  have hunused := h.consistent.mappingsOf_of_isFree hfree
  refine kernelKept_own processes_ownCopy hd hm huser fun l hl o ho => ?_
  have hne : l ≠ .frame copy := fun e => hl (e ▸ hunused)
  rw [byteAt_ownCopy,
    h.consistent.byteAt_storeFrame (length_pageAt m _) (h.consistent.books.pooled _ _ hfree) l ho,
    if_neg hne]

theorem Sound.kernelKept_patch (h : Sound m) (howns : m.userPool.owns frame = true) {offset : Nat}
    {bytes : List UInt8} (hfit : offset + bytes.length ≤ pageSize) :
    KernelKept m { m with ram := m.ram.patch (frame.toNat * pageSize + offset) bytes } := by
  intro pid page mp hm hk
  refine ⟨hm, fun o ho => ?_⟩
  cases hl : mp.location with
  | slot slot => rfl
  | frame g =>
    have hkernel := h.housed.owns h.consistent (maps_of_mappingIn? hm) hl
    rw [Permissions.pool, if_pos hk] at hkernel
    have hne : g.toNat ≠ frame.toNat := by
      intro e
      obtain rfl := UInt32.toNat_inj.mp e
      exact h.consistent.layout.apart g howns hkernel
    have hfits := Ram.lt_of_pageCount (h.consistent.layout.frames .user frame (by decide) howns)
    rw [byteAt, byteAt, ByteStore.byte_patch (by omega), if_neg]
    unfold pageSize at *
    omega

/-! ## Two memories in step -/

structure Twins (m₁ m₂ : PagedMemory) : Prop where
  alike : Alike m₁ m₂
  sound₁ : Sound m₁
  sound₂ : Sound m₂

/-- The action has the same answer in both memories, leaves them alike and leaves the kernel pages
alone. -/
def Concurs (x : Paged α) (m₁ m₂ : PagedMemory) : Prop :=
  ∃ r n₁ n₂, Yields x m₁ r n₁ ∧ Yields x m₂ r n₂ ∧ Twins n₁ n₂ ∧ KernelKept m₁ n₁ ∧ KernelKept m₂ n₂

theorem Concurs.bind {x : Paged α} {f : α → Paged β} (h : Concurs x m₁ m₂)
    (hf : ∀ a n₁ n₂, Yields x m₁ (.ok a) n₁ → Twins n₁ n₂ → Concurs (f a) n₁ n₂) :
    Concurs (x >>= f) m₁ m₂ := by
  obtain ⟨r, n₁, n₂, hx₁, hx₂, hn, hk₁, hk₂⟩ := h
  cases r with
  | error e => exact ⟨.error e, n₁, n₂, hx₁.bind_error, hx₂.bind_error, hn, hk₁, hk₂⟩
  | ok a =>
    obtain ⟨r, o₁, o₂, hf₁, hf₂, ho, hk₁', hk₂'⟩ := hf a n₁ n₂ hx₁ hn
    exact ⟨r, o₁, o₂, hx₁.bind_ok hf₁, hx₂.bind_ok hf₂, ho, hk₁.trans hk₁', hk₂.trans hk₂'⟩

theorem Concurs.of_run {x y : Paged α} (h : Concurs y m₁ m₂) (h₁ : x.run m₁ = y.run m₁)
    (h₂ : x.run m₂ = y.run m₂) : Concurs x m₁ m₂ := by
  obtain ⟨r, n₁, n₂, hy₁, hy₂, hn⟩ := h
  exact ⟨r, n₁, n₂, hy₁.of_run h₁, hy₂.of_run h₂, hn⟩

namespace Twins

variable (h : Twins m₁ m₂)
include h

theorem unchanged {x : Paged α} {r : Except Fault α} (h₁ : Yields x m₁ r m₁)
    (h₂ : Yields x m₂ r m₂) : Concurs x m₁ m₂ :=
  ⟨r, m₁, m₂, h₁, h₂, h, .refl m₁, .refl m₂⟩

theorem pure (a : α) : Concurs (pure a) m₁ m₂ :=
  h.unchanged (show Yields (Pure.pure a : Paged α) m₁ (.ok a) m₁ from rfl) rfl

theorem throw (e : Fault) : Concurs (throw e : Paged α) m₁ m₂ :=
  h.unchanged (show Yields (MonadExcept.throw e : Paged α) m₁ (.error e) m₁ from rfl) rfl

theorem outcome (r : Except Fault α) : Concurs (outcome r) m₁ m₂ :=
  h.unchanged (yields_outcome r m₁) (yields_outcome r m₂)

theorem tally (f : PagingCounters → PagingCounters) : Concurs (tally f) m₁ m₂ := by
  obtain ⟨disk, ram, rfl⟩ := h.alike.exists_withBytes
  have halike : Alike { m₁ with counters := f m₁.counters }
      { m₁.withBytes disk ram with counters := f m₁.counters } := ⟨rfl, h.alike.ram, h.alike.disk⟩
  exact ⟨.ok (), _, _, rfl, rfl, ⟨halike, h.sound₁.with_counters f, h.sound₂.with_counters f⟩,
    kernelKept_with_counters _, kernelKept_with_counters _⟩

theorem not_kernel (huser : m₁.framePool frame = .user) : ¬ m₁.kernelPool.owns frame = true := by
  intro hkernel
  have hpool := h.sound₁.consistent.layout.framePool_of_owns (k := .kernel) (by decide) hkernel
  rw [huser] at hpool
  cases hpool

/-! ## Frames for user pages -/

theorem evict (hmapped : m₁.mappingsOf (.frame frame) ≠ 0) (huser : m₁.framePool frame = .user) :
    Concurs (evict frame) m₁ m₂ := by
  have h₁ := h.sound₁.consistent
  have h₂ := h.sound₂.consistent
  have hkernel := h.not_kernel huser
  obtain ⟨disk, ram, rfl⟩ := h.alike.exists_withBytes
  cases hkeys : m₁.diskPool.free.keys with
  | nil =>
    exact h.unchanged (r := .error _) (h₁.evict_full hmapped hkeys) (h₂.evict_full hmapped hkeys)
  | cons slot rest =>
    obtain ⟨hrun₁, hr₁⟩ := h₁.evict_ok hmapped hkeys
    obtain ⟨hrun₂, hr₂⟩ := h₂.evict_ok hmapped hkeys
    have hfit :=
      Disk.lt_of_slotCount (h₁.layout.slot_lt (h₁.books.pooled .disk _ (Pool.isFree_of_keys hkeys)))
    refine ⟨.ok (), _, _, hrun₁, hrun₂,
      ⟨h.alike.evicted hkernel hfit hr₁, h.sound₁.movedOut hr₁, h.sound₂.movedOut hr₂⟩, ?_, ?_⟩
    · exact h.sound₁.kernelKept_movedOut huser hr₁
    · exact h.sound₂.kernelKept_movedOut huser hr₂

theorem makeRoom (pinned : Option Word) : Concurs (makeRoom .user pinned) m₁ m₂ := by
  have hsound := h.sound₁
  by_cases hf : m₁.HasFree .user
  · obtain ⟨disk, ram, rfl⟩ := h.alike.exists_withBytes
    exact h.unchanged (r := .ok ()) (makeRoom_run_free pinned hf) (makeRoom_run_free pinned hf)
  · cases hv : m₁.victim? .user pinned with
    | none =>
      obtain ⟨disk, ram, rfl⟩ := h.alike.exists_withBytes
      exact h.unchanged (r := .error _) (makeRoom_run_none hf hv) (makeRoom_run_none hf hv)
    | some out =>
      obtain ⟨hmapped, -, hpool⟩ := hsound.consistent.victim?_some hv
      have hevict := (h.evict hmapped hpool).bind fun _ _ _ _ hn =>
        hn.tally fun c => { c with evictions := c.evictions.succ }
      obtain ⟨disk, ram, rfl⟩ := h.alike.exists_withBytes
      exact hevict.of_run (makeRoom_run_some hf hv) (makeRoom_run_some hf hv)

end Twins

theorem user_ne_disk : PoolKind.user ≠ .disk := by decide

structure Room (pinned : Option Word) (m₁ m₂ : PagedMemory) (frame : Word) (n₁ n₂ : PagedMemory) :
    Prop where
  room₁ : MadeRoom pinned m₁ n₁
  room₂ : MadeRoom pinned m₂ n₂
  twins : Twins n₁ n₂
  kept₁ : KernelKept m₁ n₁
  kept₂ : KernelKept m₂ n₂
  pool : n₁.framePool frame = .user
  free₁ : n₁.isFree (.frame frame) = true
  free₂ : n₂.isFree (.frame frame) = true
  take₁ : (takeFrame .user pinned).run m₁ = .ok frame (n₁.handOut frame)
  take₂ : (takeFrame .user pinned).run m₂ = .ok frame (n₂.handOut frame)

theorem Twins.takeFrame (h : Twins m₁ m₂) (pinned : Option Word) :
    (∃ frame n₁ n₂, Room pinned m₁ m₂ frame n₁ n₂) ∨
      ∃ e, (takeFrame .user pinned).run m₁ = .error e m₁ ∧
        (takeFrame .user pinned).run m₂ = .error e m₂ := by
  obtain ⟨r, n₁, n₂, hx₁, hx₂, hn, hk₁, hk₂⟩ := h.makeRoom pinned
  rcases h.sound₁.consistent.makeRoom_exact user_ne_disk pinned with
    ⟨-, m₀, hroom₁, hf, hrun₁⟩ | ⟨e, hrun₁, -⟩
  · obtain ⟨rfl, rfl⟩ := hx₁.eq_of_ok hrun₁
    rcases h.sound₂.consistent.makeRoom_exact user_ne_disk pinned with
      ⟨-, m₀, hroom₂, -, hrun₂⟩ | ⟨e, hrun₂, -⟩
    · obtain ⟨-, rfl⟩ := hx₂.eq_of_ok hrun₂
      obtain ⟨frame, rest, hkeys⟩ := hf.keys
      obtain ⟨hpool, hfree₁, halloc₁⟩ := hn.sound₁.consistent.allocate_ok user_ne_disk hkeys
      have hkeys₂ : (n₂.pool .user).free.keys = frame :: rest := by rw [hn.alike.pool, hkeys]
      obtain ⟨-, hfree₂, halloc₂⟩ := hn.sound₂.consistent.allocate_ok user_ne_disk hkeys₂
      refine .inl ⟨frame, n₁, n₂, hroom₁, hroom₂, hn, hk₁, hk₂, hpool, hfree₁, hfree₂, ?_, ?_⟩
      · rw [takeFrame_eq, bind_ok hrun₁, halloc₁]
      · rw [takeFrame_eq, bind_ok hrun₂, halloc₂]
    · cases (hx₂.eq_of_error hrun₂).1
  · obtain ⟨rfl, rfl⟩ := hx₁.eq_of_error hrun₁
    rcases h.sound₂.consistent.makeRoom_exact user_ne_disk pinned with
      ⟨-, m₀, -, -, hrun₂⟩ | ⟨e', hrun₂, -⟩
    · cases (hx₂.eq_of_ok hrun₂).1
    · obtain ⟨he, -⟩ := hx₂.eq_of_error hrun₂
      refine .inr ⟨_, by rw [takeFrame_eq, bind_error hrun₁], ?_⟩
      rw [takeFrame_eq, bind_error hrun₂, Except.error.inj he]

namespace Twins

variable (h : Twins m₁ m₂)
include h

/-! ## User pages that are brought in and made private -/

theorem pageIn (hd : m₁.processes.find? pid = some d) (hm : d.find? page = some mp)
    (hl : mp.location = .slot slot) (huser : mp.permissions.kernel = false) :
    Concurs (pageIn slot .user) m₁ m₂ := by
  have hs₁ : m₁.mappingsOf (.slot slot) ≠ 0 := hl ▸ mappingsOf_ne_zero hd hm
  have hs₂ : m₂.mappingsOf (.slot slot) ≠ 0 := by rwa [h.alike.mappingsOf]
  rcases h.takeFrame none with ⟨frame, n₁, n₂, hroom⟩ | ⟨e, htake₁, htake₂⟩
  · obtain ⟨hrun₁, hr₁⟩ := h.sound₁.consistent.pageIn_ok hs₁ hroom.room₁ hroom.free₁ hroom.take₁
    obtain ⟨hrun₂, hr₂⟩ := h.sound₂.consistent.pageIn_ok hs₂ hroom.room₂ hroom.free₂ hroom.take₂
    have hn := hroom.twins
    have hn₁ := hn.sound₁.consistent
    obtain ⟨d₁, hd₁, hm₁⟩ := hroom.room₁.find? hd hm (by simp [hl])
    have hmaps₁ : Maps n₁.processes mp := ⟨pid, d₁, page, hd₁, hm₁⟩
    have hmaps₂ : Maps n₂.processes mp := by rwa [hn.alike.processes]
    have hslot : ¬ m₁.SecretSlot slot := not_secretSlot ⟨pid, d, page, hd, hm⟩ hl huser
    have hfit := Ram.lt_of_pageCount (hn₁.layout.frame_lt (hn₁.books.pooled _ _ hroom.free₁))
    have hpool : ∀ {n n' : PagedMemory}, SameExtent n n' → n.framePool frame = .user →
        n'.framePool frame = mp.permissions.pool := by
      intro n n' hextent hframe
      rw [framePool_of_range hextent.range, hframe, Permissions.pool, huser]
      rfl
    have hpool₂ : n₂.framePool frame = .user := by rw [hn.alike.framePool, hroom.pool]
    refine ⟨.ok frame, _, _, hrun₁, hrun₂,
      ⟨h.alike.broughtIn hn.alike hslot hfit hr₁, ?_, ?_⟩, ?_, ?_⟩
    · exact hn.sound₁.movedIn hr₁ hmaps₁ hl (hpool hr₁.extent hroom.pool)
    · exact hn.sound₂.movedIn hr₂ hmaps₂ hl (hpool hr₂.extent hpool₂)
    · exact hroom.kept₁.trans (hn.sound₁.kernelKept_movedIn hmaps₁ hl huser hr₁)
    · exact hroom.kept₂.trans (hn.sound₂.kernelKept_movedIn hmaps₂ hl huser hr₂)
  · exact h.unchanged (r := .error e) (h.sound₁.consistent.pageIn_error hs₁ htake₁)
      (h.sound₂.consistent.pageIn_error hs₂ htake₂)

theorem privatise (hc : m₁.current = some pid) (hd : m₁.processes.find? pid = some d)
    (hm : d.find? page = some mp) (hl : mp.location = .frame frame)
    (huser : mp.permissions.kernel = false) : Concurs (privatise page frame) m₁ m₂ := by
  have hc₂ : m₂.current = some pid := by rw [h.alike.current, hc]
  have hd₂ : m₂.processes.find? pid = some d := by rw [h.alike.processes, hd]
  by_cases hshared : 1 < m₁.mappingsOf (.frame frame)
  · have hshared₂ : 1 < m₂.mappingsOf (.frame frame) := by rwa [h.alike.mappingsOf]
    have hpool : m₁.framePool frame = .user := by
      rw [h.sound₁.housed.resident mp frame ⟨pid, d, page, hd, hm⟩ hl, Permissions.pool, huser]
      rfl
    have hpool₂ : m₂.framePool frame = .user := by rw [h.alike.framePool, hpool]
    -- both sides hand out the same user frame, or refuse alike
    rcases h.takeFrame (some frame) with ⟨copy, n₁, n₂, hroom⟩ | ⟨e, htake₁, htake₂⟩
    · have hn := hroom.twins
      have hn₁ := hn.sound₁.consistent
      have hrun₁ :=
        h.sound₁.consistent.privatise_ok hc hd hm hl hshared hroom.room₁ hroom.free₁
          (hpool.symm ▸ hroom.take₁)
      have hrun₂ :=
        h.sound₂.consistent.privatise_ok hc₂ hd₂ hm hl hshared₂ hroom.room₂ hroom.free₂
          (hpool₂.symm ▸ hroom.take₂)
      obtain ⟨d₁, hd₁, hm₁⟩ := hroom.room₁.find?_pinned hd hm hl
      obtain ⟨d₂, hd₂', hm₂⟩ := hroom.room₂.find?_pinned hd₂ hm hl
      have hframe : ¬ n₁.kernelPool.owns frame = true :=
        hn.not_kernel ((framePool_of_range hroom.room₁.extent.range frame).trans hpool)
      have hfit := Ram.lt_of_pageCount (hn₁.layout.frame_lt (hn₁.books.pooled _ _ hroom.free₁))
      refine ⟨.ok copy, _, _, hrun₁, hrun₂, ⟨hn.alike.ownCopy hd₁ hm₁ hframe hfit, ?_, ?_⟩, ?_, ?_⟩
      · exact h.sound₁.privatise (r := .ok copy) hc hd hm hl hrun₁
      · exact h.sound₂.privatise (r := .ok copy) hc₂ hd₂ hm hl hrun₂
      · exact hroom.kept₁.trans (hn.sound₁.kernelKept_ownCopy hroom.free₁ hd₁ hm₁ huser)
      · exact hroom.kept₂.trans (hn.sound₂.kernelKept_ownCopy hroom.free₂ hd₂' hm₂ huser)
    · exact h.unchanged (r := .error e)
        (h.sound₁.consistent.privatise_error hshared (hpool.symm ▸ htake₁))
        (h.sound₂.consistent.privatise_error hshared₂ (hpool₂.symm ▸ htake₂))
  · have hrun₁ : (PagedMemory.privatise page frame).run m₁ = _ :=
      privatise_run_ownInPlace (by rwa [h.sound₁.consistent.refs_eq]) hc hd
    have hrun₂ : (PagedMemory.privatise page frame).run m₂ = _ :=
      privatise_run_ownInPlace (by rwa [h.sound₂.consistent.refs_eq, h.alike.mappingsOf]) hc₂ hd₂
    refine ⟨.ok frame, _, _, hrun₁, hrun₂, ⟨h.alike.ownInPlace hd hm frame, ?_, ?_⟩, ?_, ?_⟩
    · exact h.sound₁.privatise (r := .ok frame) hc hd hm hl hrun₁
    · exact h.sound₂.privatise (r := .ok frame) hc₂ hd₂ hm hl hrun₂
    · exact kernelKept_own rfl hd hm huser fun l _ _ _ => by cases l <;> rfl
    · exact kernelKept_own rfl hd₂ hm huser fun l _ _ _ => by cases l <;> rfl

theorem bringIn (hm : m₁.mapping? page = some mp) (huser : mp.permissions.kernel = false) :
    Concurs (bringIn mp) m₁ m₂ := by
  obtain ⟨pid, d, -, hd, hmp⟩ := mapping?_some.mp hm
  unfold PagedMemory.bringIn
  cases hl : mp.location with
  | frame frame => exact h.pure frame
  | slot slot =>
    have hpool : mp.permissions.pool = .user := by
      rw [Permissions.pool, huser]
      rfl
    dsimp only
    rw [hpool]
    exact h.pageIn hd hmp hl huser

theorem materialise (hm : m₁.mapping? page = some mp) (huser : mp.permissions.kernel = false)
    (access : Access) : Concurs (materialise page mp access) m₁ m₂ := by
  rw [materialise_eq]
  refine (h.bringIn hm huser).bind fun frame n₁ n₂ hin hn => ?_
  split
  · obtain ⟨v, hv⟩ := h.sound₁.represents
    rcases h.sound₁.consistent.bringIn hv hm with ⟨-, frame', n, hrun, -, hm', -⟩ | ⟨hrun, -⟩
    · obtain ⟨hframe, rfl⟩ := hin.eq_of_ok hrun
      obtain rfl := Except.ok.inj hframe
      obtain ⟨pid, d, hc, hd, hmp⟩ := mapping?_some.mp hm'
      exact hn.privatise hc hd hmp rfl huser
    · cases (hin.eq_of_error hrun).1
  · exact hn.pure frame

theorem lookup (page address : Word) (access : Access) :
    Concurs (lookup page address access) m₁ m₂ := by
  have hcur : m₂.currentDirectory = m₁.currentDirectory :=
    congrArg (·.currentDirectory) h.alike.books
  refine Concurs.of_run ?_ (get_bind _ m₁) ((get_bind _ m₂).trans ?_)
  · refine (h.outcome _).bind fun d n₁ n₂ _ hn => ?_
    cases d.find? page with
    | some mp => exact hn.pure mp
    | none => exact (hn.tally _).bind fun _ _ _ _ hn => hn.throw _
  · rw [hcur]

theorem resolve (page address : Word) (access : Access) :
    Concurs (resolve page address access .user) m₁ m₂ := by
  refine (h.lookup page address access).bind fun mp n₁ n₂ hlookup hn => ?_
  split
  · rename_i hallow
    cases hm : m₁.mapping? page with
    | none =>
      obtain ⟨counters, hrun⟩ := lookup_unmapped hm address access
      cases (hlookup.eq_of_error hrun).1
    | some mp' =>
      obtain ⟨hmp, rfl⟩ := hlookup.eq_of_ok (lookup_run hm address access)
      obtain rfl := Except.ok.inj hmp
      exact hn.materialise hm (kernel_eq_false (pool_of_allow_user hallow)) access
  · exact (hn.tally _).bind fun _ _ _ _ hn => hn.throw _

theorem translate (address : Word) (access : Access) :
    Concurs (translate address access .user) m₁ m₂ := by
  refine (h.resolve address.page address access).bind fun frame n₁ n₂ _ hn => ?_
  refine hn.unchanged (r := .ok _) (physical_run n₁ frame _) ?_
  have hbase : Ram.frameAddress n₂.ram frame = Ram.frameAddress n₁.ram frame := by
    rw [Ram.frameAddress, Ram.frameAddress, hn.alike.ram.base]
  exact hbase ▸ physical_run n₂ frame _

/-! ## Bytes of user pages -/

section
variable (howns : m₁.userPool.owns frame = true) {offset : Nat} {width : Width}
    (hfit : offset + width.bytes ≤ pageSize)
include howns hfit

theorem span : (Ram.frameAddress m₁.ram frame + UInt32.ofNat offset).toNat =
      m₁.ram.base.toNat + (frame.toNat * pageSize + offset) ∧
    frame.toNat * pageSize + offset + width.bytes ≤ m₁.ram.size := by
  have hlayout := h.sound₁.consistent.layout
  have hlt := hlayout.frames .user frame (by decide) howns
  have hfits := Ram.lt_of_pageCount hlt
  have hsome : 0 < width.bytes := by cases width <;> decide
  exact ⟨Ram.toNat_frameAddress_add hlayout.ram hlt (by omega), by omega⟩

theorem write (value : Word) :
    Concurs
      (onRam (ByteStore.write (Ram.frameAddress m₁.ram frame + UInt32.ofNat offset) width value)) m₁
        m₂ := by
  obtain ⟨haddress, hend⟩ := h.span howns hfit
  have hlength := length_toBytes width.bytes value.toNat
  have hwrite₁ := ByteStore.write_ok haddress hend value
  have hwrite₂ := ByteStore.write_ok (h.alike.ram.base ▸ haddress) (h.alike.ram.size ▸ hend) value
  have howns₂ : m₂.userPool.owns frame = true :=
    (congrArg (·.userPool.owns frame) h.alike.books).trans howns
  refine ⟨.ok (), _, _, onRam_ok hwrite₁, onRam_ok hwrite₂,
    ⟨h.alike.patch_ram (by rwa [hlength]), ?_, ?_⟩, ?_, ?_⟩
  · exact h.sound₁.with_ram (ByteStore.base_patch ..) (ByteStore.size_patch ..)
  · exact h.sound₂.with_ram (ByteStore.base_patch ..) (ByteStore.size_patch ..)
  · exact h.sound₁.kernelKept_patch howns (by rwa [hlength])
  · exact h.sound₂.kernelKept_patch howns₂ (by rwa [hlength])

theorem exchange (store : Option Word) :
    Concurs (exchange (Ram.frameAddress m₁.ram frame + UInt32.ofNat offset) width store) m₁ m₂ := by
  obtain ⟨haddress, hend⟩ := h.span howns hfit
  have hread₁ := ByteStore.read_ok haddress hend
  have hread₂ := ByteStore.read_ok (h.alike.ram.base ▸ haddress) (h.alike.ram.size ▸ hend)
  rw [h.alike.ram.slice_page (h.sound₁.consistent.layout.apart frame howns) hfit] at hread₂
  cases store with
  | none =>
    exact (h.pure _).of_run ((get_bind _ m₁).trans (bind_ok (outcome_ok hread₁ m₁)))
      ((get_bind _ m₂).trans (bind_ok (outcome_ok hread₂ m₂)))
  | some value =>
    exact ((h.write howns hfit value).bind fun _ _ _ _ hn => hn.pure _).of_run
      ((get_bind _ m₁).trans (bind_ok (outcome_ok hread₁ m₁)))
        ((get_bind _ m₂).trans (bind_ok (outcome_ok hread₂ m₂)))

end

/-- A translation for a user program ends with a byte of a user frame. -/
theorem translate_owns {address physical : Word} {access : Access}
    (hstep : Yields (PagedMemory.translate address access .user) m₁ (.ok physical) m') : ∃ frame,
      m'.userPool.owns frame = true ∧
      physical = Ram.frameAddress m'.ram frame + UInt32.ofNat address.pageOffset := by
  obtain ⟨v, hv⟩ := h.sound₁.represents
  obtain ⟨frame, howns, he, -⟩ := h.sound₁.consistent.translate_user hv h.sound₁.housed hstep
  exact ⟨frame, howns, he⟩

end Twins

theorem Twins.exchangeBytes (t : Transfer) (count : Nat) : ∀ (offset : Nat) {m₁ m₂ : PagedMemory},
    Twins m₁ m₂ → Concurs (exchangeBytes t .user offset count) m₁ m₂ := by
  induction count with
  | zero => exact fun _ _ _ h => h.pure 0
  | succ count ih =>
    intro offset m₁ m₂ h
    refine (h.translate _ t.access).bind fun physical n₁ n₂ htranslate hn => ?_
    obtain ⟨frame, howns, rfl⟩ := h.translate_owns htranslate
    have hbyte : (t.address + UInt32.ofNat offset).pageOffset + Width.byte.bytes ≤ pageSize :=
      Nat.succ_le_of_lt (Nat.mod_lt _ (by decide))
    refine (hn.exchange howns hbyte _).bind fun old o₁ o₂ _ ho => ?_
    exact (ih (offset + 1) ho).bind fun _ _ _ _ hrest => hrest.pure _

theorem Twins.transferMapped (h : Twins m₁ m₂) (t : Transfer) :
    Concurs (transferMapped t .user) m₁ m₂ := by
  unfold PagedMemory.transferMapped
  split
  · refine (h.translate _ _).bind fun _ _ _ _ hn => ?_
    refine (hn.translate _ _).bind fun _ _ _ _ hn => ?_
    exact (Twins.exchangeBytes t _ 0 hn).bind fun _ _ _ _ hn => hn.pure _
  · rename_i hcross
    have hfit : t.address.pageOffset + t.width.bytes ≤ pageSize := by
      simpa [crossesPage] using hcross
    refine (h.translate _ _).bind fun physical n₁ n₂ htranslate hn => ?_
    obtain ⟨frame, howns, rfl⟩ := h.translate_owns htranslate
    exact hn.exchange howns hfit _

end PagedMemory

end PagedMachine
