import PagedMachine.Proofs.Confinement

/-!
# Stores of the host and other processes

A store of the host is private where the page is writable or flagged. A fork flags
what is writable and nothing else, so a page that no program may write stays one
page, and what the host stores there is seen by all who map it.
-/

namespace PagedMachine

variable {op : Operation} {r : Except Fault Answer}

def Bus.InWindow (b : Bus) (base : Word) (image : List UInt8) : Prop :=
  ∀ i < image.length, b.Serves .mapped (base + UInt32.ofNat i)

def HostPrivate (b : Bus) (e : Event Bus Operation Answer) : Prop :=
  ∀ base image, e.operation = .loadImage base image → b.InWindow base image →
    ∀ q, b.memory.current ≠ some q → ∀ a, e.state.memory.byte? q a = b.memory.byte? q a

/-- Another process sees what the host stores just where the page is exposed to it. -/
structure HostConfined (b : Bus) (e : Event Bus Operation Answer) : Prop where
  shown : ∀ base image, e.operation = .loadImage base image → b.InWindow base image →
    ∃ n ≤ image.length, (e.answer.isOk → n = image.length) ∧
      ∀ q, b.memory.current ≠ some q → ∀ a, e.state.memory.byte? q a =
        lastShown (b.memory.exposes · q a) base (image.take n) (b.memory.byte? q a)
  hidden : ∀ base image, e.operation = .loadImage base image → b.InWindow base image →
    ∀ q, b.memory.current ≠ some q →
      ∀ a, (∀ i < image.length, b.memory.exposes (base + UInt32.ofNat i) q a = false) →
      e.state.memory.byte? q a = b.memory.byte? q a
  exposed : ∀ address q a, b.memory.current ≠ some q → b.memory.exposes address q a →
    ∃ mp, b.memory.mapping? address.page = some mp ∧ ¬ mp.permissions.write ∧ ¬ mp.copyOnWrite

theorem Virtual.Bus.loadImage_shown {v v' : Virtual.Bus} {base : Word} {image : List UInt8}
    {r : Except Fault Unit} (hf : v.memory.Fresh)
    (hw : ∀ i < image.length, ∃ region, v.regions.regionOf? (base + UInt32.ofNat i) = some region ∧
      region.kind = .mapped) (h : (loadImage base image).allows v r v') : ∃ n ≤ image.length,
      (r.isOk → n = image.length) ∧ ∀ q, v.memory.current ≠ some q → ∀ a, v'.memory.byte? q a =
        lastShown (v.memory.exposes · q a) base (image.take n) (v.memory.byte? q a) := by
  unfold loadImage at h
  split at h
  · obtain ⟨n, hn, hok, hloads⟩ := loadBytes_window image hw h
    exact ⟨n, hn, hok, fun q hq a => hloads.byte? hf hq a⟩
  · obtain ⟨rfl, rfl⟩ := h
    exact ⟨0, Nat.zero_le _, nofun, fun _ _ _ => rfl⟩

namespace Bus.Represents

variable {b b' : Bus} {v v' : Virtual.Bus}

theorem shown (hr : Represents b v) (hspec : Virtual.Bus.Step op v r v') (hr' : Represents b' v')
    {base : Word} {image : List UInt8} (hop : op = .loadImage base image)
    (hw : b.InWindow base image) :
    ∃ n ≤ image.length, (r.isOk → n = image.length) ∧
      ∀ q, b.memory.current ≠ some q → ∀ a, b'.memory.byte? q a =
        lastShown (b.memory.exposes · q a) base (image.take n) (b.memory.byte? q a) := by
  subst hop
  obtain ⟨r₀, rfl, h⟩ := Behaviour.allows_map.mp hspec
  rw [InWindow] at hw
  simp only [Serves, ← hr.regions] at hw
  obtain ⟨n, hn, hok, hbytes⟩ := Virtual.Bus.loadImage_shown hr.memory.isFresh hw h
  refine ⟨n, hn, isOk_map r₀ ▸ hok, fun q hq a => ?_⟩
  rw [← hr'.memory.byte?, ← hr.memory.byte?, hbytes q (hr.memory.current ▸ hq)]
  simp only [hr.memory.exposes]

theorem hostConfined (hr : Represents b v) (hg : v.memory.Guarded)
    (hspec : Virtual.Bus.Step op v r v') (hr' : Represents b' v') : HostConfined b ⟨op, r, b'⟩ where
  shown base image hop hw := hr.shown hspec hr' hop hw
  hidden base image hop hw q hq a hhidden := by
    obtain ⟨n, hn, -, hbytes⟩ := hr.shown hspec hr' hop hw
    rw [hbytes q hq]
    apply lastShown_of_hidden
    intro i hi
    rw [List.length_take] at hi
    exact hhidden i (by omega)
  exposed address q a hq he := by
    obtain ⟨name, hname⟩ := hr.memory
    rw [← hname.exposes] at he
    obtain ⟨m, m', hm, hflag, -⟩ := Virtual.Memory.exposes_eq_true.mp he
    have hwrite : ¬ m.permissions.write := by
      intro hwrite
      rw [hg.not_exposes hm hwrite (hname.current ▸ hq)] at he
      cases he
    rw [hname.find?] at hm
    obtain ⟨mp, hmp, rfl⟩ := Option.map_eq_some_iff.mp hm
    exact ⟨mp, hmp, hwrite, hflag⟩

end Bus.Represents

/-- In a run that shares pages by forks and guarded shares only, the host's bytes are seen by others
just where they are exposed, which only pages are that no program may write. -/
theorem Bus.host_stores_shown {ram : Ram} {rom : Rom} {disk : Disk} {window : Word × Word}
    {ranges : PageRanges} {b b' : Bus} {es : List (Event Bus Operation Answer)}
    (hb : Bus.ofDevices ram rom disk window ranges = .ok b)
    (hdisk : disk.base = 0) (hrun : Run Operation.Step b es b') (hpids : creations es < 2 ^ 32 - 1)
    (hcounts : ∀ e ∈ es, PagedMemory.WithinCounts e.state.memory) (hflagged : ∀ e ∈ es, Flagged e) :
    Along HostConfined b es :=
  along_guarded hb hdisk hrun hpids hcounts hflagged fun hr hg hspec hr' =>
    hr.hostConfined hg hspec hr'

namespace TwoReaders

open PagedMemory

section
variable (disk : Disk) (ram : Ram)

def loaded : PagedMemory := { forked disk ram with ram := (ram.patch 0 zeroPage).patch 0 [0xAA] }

section
variable {ram : Ram} (hram : ram.base.toNat + ram.size ≤ 2 ^ 32) (hcount : 0 < Ram.pageCount ram)
include hcount

theorem one_le_size : 0 + [(0xAA : UInt8)].length ≤ ram.size := by
  unfold Ram.pageCount pageSize at hcount
  rw [List.length_singleton]
  omega

include hram

theorem writeBytes_first :
    (ByteStore.writeBytes (Ram.frameAddress ram 0 + UInt32.ofNat 0) [0xAA]).run ram =
    .ok () (ram.patch 0 [0xAA]) :=
  ByteStore.writeBytes_ok (Ram.toNat_frameAddress_add hram hcount (by decide)) (one_le_size hcount)

end

theorem step_loadImage (hram : ram.base.toNat + ram.size ≤ 2 ^ 32)
    (hcount : 0 < Ram.pageCount ram) : Operation.Step (.loadImage 0x400000 [0xAA])
    (bus (forked disk ram)) (.ok .done) (bus (loaded disk ram)) := by
  have hsize := ByteStore.size_patch ram 0 zeroPage
  have hstore :
      (ByteStore.writeBytes (Ram.frameAddress (ram.patch 0 zeroPage) 0 + UInt32.ofNat 0) [0xAA]).run
      (forked disk ram).ram = .ok () ((ram.patch 0 zeroPage).patch 0 [0xAA]) := by
    apply writeBytes_first
    · rw [hsize, ByteStore.base_patch]
      exact hram
    · rw [Ram.pageCount_patch]
      exact hcount
  have htranslate : (translateHostWrite 0x400000).run (forked disk ram) =
    .ok (Ram.frameAddress (ram.patch 0 zeroPage) 0 + UInt32.ofNat 0) (forked disk ram) := rfl
  have hload : (translateHostWrite 0x400000 >>= fun physical =>
      onRam (ByteStore.writeBytes physical [0xAA])).run
      (forked disk ram) = .ok () (loaded disk ram) :=
    (bind_ok htranslate).trans (onRam_ok hstore)
  have hbyte :
      (Bus.loadByte 0x400000 0xAA).run (bus (forked disk ram)) = .ok () (bus (loaded disk ram)) :=
    Bus.onMemory_ok (b := bus (forked disk ram)) hload
  exact map_ok ((bind_ok hbyte).trans rfl)

theorem byte?_forked (hcount : 0 < Ram.pageCount ram) :
    (forked disk ram).byte? 2 0x400000 = some 0 := by
  have hzero : (ram.patch 0 zeroPage).byte 0 = 0 := by
    have hfits : 0 + zeroPage.length ≤ ram.size := by
      unfold Ram.pageCount pageSize at hcount
      rw [zeroPage, List.length_replicate, pageSize]
      omega
    rw [ByteStore.byte_patch hfits, zeroPage, List.length_replicate, if_pos (by decide)]
    exact getD_zeroPage (by decide)
  exact congrArg some hzero

theorem byte?_loaded (hcount : 0 < Ram.pageCount ram) :
    (loaded disk ram).byte? 2 0x400000 = some 0xAA := by
  have hstored : ((ram.patch 0 zeroPage).patch 0 [0xAA]).byte 0 = 0xAA := by
    rw [ByteStore.byte_patch (by rw [ByteStore.size_patch]; exact one_le_size hcount)]
    rfl
  exact congrArg some hstored

end

def loadEvents : List (Event Bus Operation Answer) :=
  busEvents ++ [⟨.loadImage 0x400000 [0xAA], .ok .done, bus (loaded disk ram)⟩]

theorem load_run : Run Operation.Step (bus (start disk ram)) loadEvents (bus (loaded disk ram)) :=
  bus_run.append (.next (step_loadImage disk ram ram_fits.1 ram_fits.2) (.done _))

theorem load_withinCounts : ∀ e ∈ loadEvents, WithinCounts e.state.memory := by
  intro e he
  rcases List.mem_append.mp he with he | he
  · exact bus_withinCounts e he
  · obtain rfl := List.mem_singleton.mp he
    exact withinCounts_of_size (by decide : 2 ≤ maxRefs)

theorem load_flagged : ∀ e ∈ loadEvents, Flagged e := by
  intro e he
  rcases List.mem_append.mp he with he | he
  · exact flagged e he
  · obtain rfl := List.mem_singleton.mp he
    exact nofun

theorem host_bytes_shown : Along HostConfined (bus (start disk ram)) loadEvents :=
  Bus.host_stores_shown bus_ofDevices rfl load_run
    (by decide : 2 < 2 ^ 32 - 1) load_withinCounts load_flagged

/-- The byte that the host stored for process 1 is found by process 2. -/
theorem not_private : Bus.ofDevices ram rom disk window ranges = .ok (bus (start disk ram)) ∧
    Run Operation.Step (bus (start disk ram)) loadEvents (bus (loaded disk ram)) ∧
    (∀ e ∈ loadEvents, Flagged e) ∧ ¬ Along HostPrivate (bus (start disk ram)) loadEvents := by
  refine ⟨bus_ofDevices, load_run, load_flagged, fun h => ?_⟩
  have hwindow : (bus (forked disk ram)).InWindow 0x400000 [0xAA] := by
    intro i hi
    obtain rfl : i = 0 := Nat.lt_one_iff.mp hi
    exact ⟨⟨.mapped, 0x400000, 0x7FFFFF⟩, by decide, rfl⟩
  have hload := (h.of_append bus_run).1 0x400000 [0xAA] rfl hwindow 2 (by decide) 0x400000
  have hbytes : some (0xAA : UInt8) = some 0 :=
    (byte?_loaded disk ram ram_fits.2).symm.trans (hload.trans (byte?_forked disk ram ram_fits.2))
  exact absurd hbytes (by decide)

end TwoReaders

end PagedMachine
