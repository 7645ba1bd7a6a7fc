import Mathlib.Data.List.Perm.Subperm
import PagedMachine.Proofs.Extension
import PagedMachine.Proofs.FaultingSteps
import PagedMachine.Proofs.Refusals

/-!
# Repairs

A step that faults for want of a page is tried again once the host has mapped the
page. The instruction touches at most two pages in its fetch and two more in its
transfer, a page that was mapped is not missed again, and the same instruction is
fetched every time. So there are at most four repairs.
-/

namespace PagedMachine

open Region

theorem Virtual.addPage_ok {v v' : Virtual.Memory} {page : Word} {permissions : Permissions}
    {copyOnWrite : Bool} (h : (Virtual.addPage page permissions copyOnWrite).allows v (.ok ()) v') :
    ∃ pid d, v.current = some pid ∧ v.processes.find? pid = some d ∧ d.find? page = none ∧
      v' = v.withPage pid page permissions copyOnWrite := by
  rcases Virtual.allows_checkPage h with h | ⟨e, he, -⟩
  · rcases Virtual.allows_currentDirectory (Behaviour.allows_get_bind.mp h) with
      ⟨pid, d, hc, hd, h⟩ | ⟨e, he, -⟩
    · cases hp : d.contains page with
      | true =>
        rw [hp] at h
        cases (Behaviour.allows_fault_bind.mp h).1
      | false =>
        rw [hp] at h
        rcases Behaviour.allows_claim_bind.mp h with h | ⟨pool, he, -⟩
        · obtain ⟨-, hv⟩ := Behaviour.allows_modify.mp h
          rw [Virtual.Memory.updateCurrent_eq hc] at hv
          exact ⟨pid, d, hc, hd, Table.contains_eq_false.mp hp, hv⟩
        · cases he
    · cases he
  · cases he

/-! ## Missing pages -/

namespace Bus

def Laid (b : Bus) (window : Word × Word) : Prop :=
  RegionMap.ofRanges (b.rom.base, UInt32.ofNat b.rom.size) (b.memory.ram.base,
    UInt32.ofNat b.memory.ram.size) window =
    .ok b.regions

variable {b b' c : Bus} {v : Virtual.Bus} {t : Transfer} {s : Registers} {window : Word × Word}
    {a q : Word} {access : Access}

/-- What leaves the devices where they are leaves the regions right. -/
theorem Laid.of_keeps {α : Type} {x : OnBus α} {r : Except Fault α} (h : b.Laid window)
    (hx : Keeps (Within (PagedMemory.RamAt b.memory.ram.base b.memory.ram.size) b) x)
    (hstep : Yields x b r b') : b'.Laid window := by
  have hwithin := hx b r b' ⟨⟨rfl, rfl⟩, rfl, rfl, rfl⟩ hstep
  unfold Laid
  rw [hwithin.romBase, hwithin.romSize, hwithin.memory.1, hwithin.memory.2, hwithin.regions]
  exact h

theorem Laid.transfer (h : b.Laid window) {r : Except Fault Word}
    (ht : Yields (transfer t) b r b') : b'.Laid window :=
  h.of_keeps (keeps_transfer (PagedMemory.stable_ramAt _ _).enduring t) ht

/-- A page fault names an address that the transfer touches, and nobody has mapped its page. -/
theorem Represents.transfer_pageFault (hr : Represents b v) (hlaid : b.Laid window)
    (hq : b.memory.current = some q) (h : Yields (transfer t) b (.error (.pageFault a access)) b') :
    Virtual.Touches t a ∧ b.memory.byte? q a = none := by
  have hrouted := hr.routed hlaid h
  -- only the window can miss a page: ROM and RAM serve, refuse stores, or are out of bounds
  by_cases hcovered : ∃ k, CoversAll (deviceRanges b.rom b.memory.ram window k) t.address t.width
  · obtain ⟨k, hk⟩ := hcovered
    cases k with
    | rom =>
      by_cases hwrite : t.access = .write
      · cases hrouted.readOnly hk hwrite
      · obtain ⟨x, hx⟩ := hrouted.rom hk hwrite
        cases hx
    | ram =>
      obtain ⟨x, hx⟩ := hrouted.ram hk
      cases hx
    | mapped =>
      have hmap : RegionMap.ofRanges (deviceRanges b.rom b.memory.ram window .rom)
        (deviceRanges b.rom b.memory.ram window .ram)
          (deviceRanges b.rom b.memory.ram window .mapped) = .ok b.regions := hlaid
      have hadmissible := RegionMap.ofRanges_iff_admissible.mp ⟨_, hmap⟩
      have hregion := RegionMap.regionOf?_of_covers hmap (first_covered hk)
      have hholds :=
        (holds_ofRange (k := .mapped) (hadmissible.sound .mapped) t.address t.width).mpr hk
      obtain ⟨r₁, b₁, v', hb, hspec, -⟩ := mirrors_transfer hr t
      obtain ⟨rfl, -⟩ := h.unique hb
      obtain ⟨m, hm, -⟩ := Virtual.Bus.transfer_mapped (hr.regions ▸ hregion) rfl hholds hspec
      obtain ⟨htouches, hnone⟩ := (Virtual.transferMapped_denied hm).pageFault
      refine ⟨htouches, ?_⟩
      rw [← hr.memory.byte?, Virtual.Memory.byte?,
        ← Virtual.Memory.find?_eq (hr.memory.current.trans hq), hnone]
      rfl
  · cases (hrouted.outOfBounds t.address).mpr ⟨rfl, hcovered⟩

/-- An instruction misses a page in its fetch or in the transfer that it makes then. -/
theorem executeNext_pageFault (h : Yields (executeNext s) b (.error (.pageFault a access)) b') :
    Yields (fetch s.pc) b (.error (.pageFault a access)) b' ∨
    ∃ w b₁ t, Yields (fetch s.pc) b (.ok w) b₁ ∧ b.Accesses s t ∧
      Yields (transfer t) b₁ (.error (.pageFault a access)) b' := by
  rcases h.of_bind with ⟨w, b₁, hfetch, hrest⟩ | ⟨e, he, hfetch⟩
  · rcases hrest.of_outcome_bind with ⟨i, hi, hexecute⟩ | ⟨⟨e, hdecode, he⟩, -⟩
    · unfold Instruction.execute ExecutionUnit.run at hexecute
      split at hexecute
      · rename_i plan hplan
        cases plan with
        | done e => cases (Yields.of_pure hexecute).1
        | access t effects =>
          obtain ⟨r₁, hr₁, ht⟩ := Yields.of_map (g := effects) hexecute
          cases r₁ with
          | ok x => cases hr₁
          | error e =>
            cases hr₁
            exact .inr ⟨w, b₁, t, hfetch, ⟨w, b₁, i, effects, hfetch, hi, hplan⟩, ht⟩
      · cases hexecute.of_throw.1
    · unfold Instruction.decodeAt at hdecode
      split at hdecode
      · cases hdecode
      · cases hdecode
        cases he
  · cases he
    exact .inl hfetch

def Reaches (b : Bus) (s : Registers) (t : Transfer) : Prop := t = .fetch s.pc ∨ b.Accesses s t

theorem Represents.executeNext_pageFault (hr : Represents b v) (hlaid : b.Laid window)
    (hq : b.memory.current = some q)
    (h : Yields (executeNext s) b (.error (.pageFault a access)) b') :
    (∃ t, b.Reaches s t ∧ Virtual.Touches t a) ∧ b.memory.byte? q a = none ∧ Extends b b' ∧
      (∀ q a, b'.memory.byte? q a = b.memory.byte? q a) ∧ ∃ v', Represents b' v' := by
  rcases Bus.executeNext_pageFault h with hfetch | ⟨w, b₁, t, hfetch, haccesses, ht⟩
  · obtain ⟨htouches, hnone⟩ := hr.transfer_pageFault hlaid hq hfetch
    obtain ⟨hext, hr', hsame⟩ := hr.transfer_extends hfetch (.inr rfl)
    exact ⟨⟨_, .inl rfl, htouches⟩, hnone, hext, hsame, hr'⟩
  · obtain ⟨hext, ⟨v₁, hr₁⟩, hsame⟩ := hr.transfer_extends hfetch (.inr rfl)
    obtain ⟨hext', hr', hsame'⟩ := hr₁.transfer_extends ht (.inl ⟨_, rfl⟩)
    obtain ⟨htouches, hnone⟩ :=
      hr₁.transfer_pageFault (hlaid.transfer hfetch) (hext.current.trans hq) ht
    rw [hsame] at hnone
    exact ⟨⟨t, .inr haccesses, htouches⟩, hnone, hext.trans hext', fun q a =>
      (hsame' q a).trans (hsame q a), hr'⟩

/-! ## Mapping a missing page -/

theorem page_le_maxPage (a : Word) : ¬ maxPage < a.page := by
  intro h
  have hlt := a.toNat_lt
  have hpage : a.page.toNat = a.toNat / pageSize := by
    rw [Word.page, UInt32.toNat_ofNat', Nat.mod_eq_of_lt]
    exact Nat.lt_of_le_of_lt (Nat.div_le_self ..) hlt
  rw [UInt32.lt_iff_toNat_lt, hpage, show maxPage.toNat = 0xFFFFF from rfl] at h
  unfold pageSize at h
  omega

theorem Represents.unmapped (hr : Represents b v) (hq : b.memory.current = some q)
    (hnone : b.memory.byte? q a = none) : b.memory.mapping? a.page = none := by
  rw [← hr.memory.byte?, Virtual.Memory.byte?,
    ← Virtual.Memory.find?_eq (hr.memory.current.trans hq)] at hnone
  obtain ⟨name, hname⟩ := hr.memory
  rw [hname.find?, Option.map_map] at hnone
  exact Option.map_eq_none_iff.mp hnone

theorem Represents.extends_memory (hr : Represents b v) {m : PagedMemory} {w : Virtual.Memory}
    (hw : PagedMemory.Represents m w) (hcurrent : w.current = v.memory.current)
    (hkept : ∀ q a x, v.memory.byte? q a = some x → w.byte? q a = some x) :
    Extends b { b with memory := m } := by
  refine ⟨rfl, rfl, hw.current.symm.trans (hcurrent.trans hr.memory.current), fun q a x hx => ?_⟩
  rw [← hr.memory.byte?] at hx
  exact (hw.byte? q a).symm.trans (hkept q a x hx)

/-- A missing page is mapped, or there is none to be had. -/
theorem Represents.addPage_extends (hr : Represents b v) (hq : b.memory.current = some q)
    (hnone : b.memory.byte? q a = none) {permissions : Permissions} {copyOnWrite : Bool}
    {r : Except Fault Word}
    (h : Yields (onMemory (PagedMemory.addPage a.page permissions copyOnWrite)) b r b') :
    Extends b b' ∧ (∃ v', Represents b' v') ∧
    ((∃ frame x, r = .ok frame ∧ b'.memory.byte? q a = some x) ∨
      r = .error (.resourceExhausted .disk)) := by
  obtain ⟨m, hm, rfl⟩ := yields_onMemory h
  rcases hr.consistent.addPage hr.memory a.page permissions copyOnWrite with
    ⟨frame, _, m₁, w, hrun, hspec, hfollows, -⟩ | ⟨e, m₁, w, hrun, hspec, hfollows, -⟩
  · obtain ⟨rfl, rfl⟩ := hm.eq_of_ok hrun
    obtain ⟨pid, d, hc, hd, hp, rfl⟩ := Virtual.addPage_ok hspec
    have heffect : Virtual.Effect v.memory (.addPage a.page permissions copyOnWrite) .done _ :=
      .addPage permissions copyOnWrite hc hd hp
    obtain rfl : pid = q := Option.some.inj (hc.symm.trans (hr.memory.current.trans hq))
    have hnew :=
      (Virtual.mapping?_withPage hd permissions copyOnWrite pid a.page).trans (if_pos ⟨rfl, rfl⟩)
    obtain ⟨x, hx⟩ :
        ∃ x, (v.memory.withPage pid a.page permissions copyOnWrite).byte? pid a = some x :=
      ⟨_, Virtual.Memory.byte?_some.mpr ⟨_, hnew, rfl⟩⟩
    refine ⟨hr.extends_memory hfollows.represents rfl fun q a x hx => ?_, ⟨_, hr.follows hfollows⟩,
      .inl ⟨frame, x, rfl, ?_⟩⟩
    · exact heffect.byte? hr.memory.isFresh (hr.memory.find?_next hr.consistent) id hx
    · exact (hfollows.represents.byte? pid a).symm.trans hx
  · obtain ⟨rfl, rfl⟩ := hm.eq_of_error hrun
    rcases Virtual.addPage_allows hspec with ⟨hok, -⟩ | ⟨_, -, -, rfl⟩
    · cases hok
    · refine ⟨hr.extends_memory hfollows.represents rfl fun _ _ _ hx =>
        hx, ⟨_, hr.follows hfollows⟩, .inr ?_⟩
      have hfault := hr.consistent.fault?_addPage a.page permissions copyOnWrite
      rw [fault?_error hrun, PagedMemory.mappingFault?, if_neg (page_le_maxPage a), hq,
        hr.unmapped hq hnone] at hfault
      dsimp only at hfault
      rw [if_neg (by decide)] at hfault
      split at hfault
      · rw [Option.some.inj hfault]
      · cases hfault

end Bus

namespace Machine

/-! ## Rounds of repair -/

/-- An address whose page was missed, and the answer when the host mapped it. -/
structure Repair where
  address : Word
  answer : Except Fault Answer

def Repair.page (x : Repair) : Word := x.address.page

inductive Repairs : Machine → List Repair → Machine → Prop
  | done (m : Machine) : Repairs m [] m
  | next {m m₁ m₂ m' : Machine} {a : Word} {access : Access} {r : Except Fault Answer}
      {rs : List Repair} :
      m.step = (.fault (.pageFault a access), m₁) →
      MachineOperation.Step (.host (.bus (.paging (.addPage a.page .all false)))) m₁ r m₂ →
      Repairs m₂ rs m' → Repairs m (⟨a, r⟩ :: rs) m'

structure Repairable (q : Word) (m : Machine) : Prop where
  represents : ∃ v, m.bus.Represents v
  laid : ∃ window, m.bus.Laid window
  current : m.bus.memory.current = some q
  served : m.bus.Serves .rom m.registers.pc ∨ m.bus.Serves .mapped m.registers.pc

structure Mends (q : Word) (m : Machine) (x : Repair) (m' : Machine) : Prop where
  registers : m'.registers = m.registers
  bus : m.bus.Extends m'.bus
  repairable : Repairable q m'
  reached : ∃ t, m.bus.Reaches m.registers t ∧ Virtual.Touches t x.address
  missed : m.bus.memory.byte? q x.address = none
  outcome : x.answer = .ok .done ∧ (∃ byte, m'.bus.memory.byte? q x.address = some byte) ∨
    x.answer = .error (.resourceExhausted .disk)

variable {m m₁ m₂ m' : Machine} {q a : Word} {access : Access} {r : Except Fault Answer}
    {rs : List Repair} {f : Fault}

theorem yields_of_fault (h : m.step = (.fault f, m₁)) :
    Yields (executeNext m.registers) m.bus (.error f) m₁.bus ∧ m₁.registers = m.registers := by
  rcases step_cases m with hstep | ⟨b', ⟨e, hx, hstep⟩ | ⟨e, hx, hstep⟩⟩
  · cases hstep.symm.trans h
  · exact absurd (congrArg Prod.fst (hstep.symm.trans h)) (retire_ne_fault _ e f)
  · obtain ⟨hfault, rfl⟩ := Prod.mk.inj (hstep.symm.trans h)
    cases hfault
    exact ⟨hx, rfl⟩

theorem Repairable.mends (h : Repairable q m) (hstep : m.step = (.fault (.pageFault a access), m₁))
    (hadd : MachineOperation.Step (.host (.bus (.paging (.addPage a.page .all false)))) m₁ r m₂) :
    Mends q m ⟨a, r⟩ m₂ := by
  obtain ⟨v, hr⟩ := h.represents
  obtain ⟨window, hlaid⟩ := h.laid
  obtain ⟨hx, hregisters⟩ := yields_of_fault hstep
  obtain ⟨hreached, hmissed, hext, hsame, v₁, hr₁⟩ := hr.executeNext_pageFault hlaid h.current hx
  have hI := PagedMemory.stable_ramAt m.bus.memory.ram.base m.bus.memory.ram.size
  have hlaid₁ := hlaid.of_keeps (Bus.keeps_executeNext hI.enduring m.registers) hx
  obtain ⟨r₀, b₂, hperform⟩ :=
    yields_exists (HostOperation.bus (.paging (.addPage a.page .all false))).perform m₁.bus
  obtain ⟨rfl, rfl⟩ := hadd.unique (onBus_run hperform)
  have hlaid₂ := hlaid₁.of_keeps (Bus.keeps_host (PagedMemory.stable_ramAt _ _).enduring
    fun _ _ => (PagedMemory.stable_ramAt _ _).step fun _ _ h => h) hperform
  obtain ⟨memory, hm, rfl⟩ := Bus.yields_onMemory hperform
  obtain ⟨r₁, rfl, hpage⟩ := Yields.of_map (g := fun _ : Word => Answer.done) hm
  have honMemory : Yields (Bus.onMemory (PagedMemory.addPage a.page .all false)) m₁.bus r₁
      { m₁.bus with memory := memory } := by
    cases r₁ with
    | ok frame => exact Bus.onMemory_ok hpage
    | error e => exact Bus.onMemory_error hpage
  have hcurrent₁ := hext.current.trans h.current
  obtain ⟨hext', hr₂, houtcome⟩ :=
    hr₁.addPage_extends hcurrent₁ ((hsame q a).trans hmissed) honMemory
  have hextends := hext.trans hext'
  -- the step and the new page both only extend what is found, so what was served still is
  refine ⟨hregisters, hextends, ⟨hr₂, ⟨window, hlaid₂⟩, hextends.current.trans h.current, ?_⟩,
    hreached, hmissed, ?_⟩
  · exact h.served.imp (fun hrom => hregisters ▸ hextends.serves hrom) fun hw =>
      hregisters ▸ hextends.serves hw
  · rcases houtcome with ⟨frame, byte, rfl, hbyte⟩ | rfl
    · exact .inl ⟨rfl, byte, hbyte⟩
    · exact .inr rfl

/-! ## Any number of rounds -/

theorem Repairs.kept (h : Repairs m rs m') : Repairable q m →
    m'.registers = m.registers ∧ m.bus.Extends m'.bus ∧ Repairable q m' := by
  induction h with
  | done m => exact fun hm => ⟨rfl, .refl _, hm⟩
  | next hstep hadd _ ih =>
    intro hm
    have hmends := hm.mends hstep hadd
    obtain ⟨hregisters, hext, hm'⟩ := ih hmends.repairable
    exact ⟨hregisters.trans hmends.registers, hmends.bus.trans hext, hm'⟩

theorem Repairs.answers (h : Repairs m rs m') : Repairable q m →
    ∀ x ∈ rs, x.answer = .ok .done ∨ ∃ pool, x.answer = .error (.resourceExhausted pool) := by
  induction h with
  | done m => exact fun _ => nofun
  | next hstep hadd _ ih =>
    intro hm x hx
    have hmends := hm.mends hstep hadd
    rcases List.mem_cons.mp hx with rfl | hx
    · exact hmends.outcome.imp And.left fun h => ⟨.disk, h⟩
    · exact ih hmends.repairable x hx

/-- Once the instruction has been fetched, it misses pages in that fetch or in its one transfer. -/
theorem Repairs.touches_of_accesses {b : Bus} {v : Virtual.Bus} {t : Transfer} (hr : b.Represents v)
    (hq : b.memory.current = some q) (h : Repairs m rs m') : Repairable q m → b.Extends m.bus →
      (b.Serves .rom m.registers.pc ∨ b.Serves .mapped m.registers.pc) → b.Accesses m.registers t →
      ∀ x ∈ rs, Virtual.Touches (.fetch m.registers.pc) x.address ∨
        Virtual.Touches t x.address := by
  induction h with
  | done m => exact fun _ _ _ _ => nofun
  | @next m m₁ m₂ m' a access r rs hstep hadd _ ih =>
    intro hm hext hserved haccesses x hx
    have hmends := hm.mends hstep hadd
    rcases List.mem_cons.mp hx with rfl | hx
    · obtain ⟨t', rfl | haccesses', htouches⟩ := hmends.reached
      · exact .inl htouches
      · obtain ⟨w, hw⟩ := hm.represents
        obtain rfl := hr.accesses_again hw hext hq hserved haccesses haccesses'
        exact .inr htouches
    · have hrest := ih hmends.repairable (hext.trans hmends.bus)
      rw [hmends.registers] at hrest
      exact hrest hserved haccesses x hx

/-- All the pages that are missed belong to one fetch and one transfer. -/
theorem Repairs.touches (h : Repairs m rs m') : Repairable q m →
    ∃ t, ∀ x ∈ rs, Virtual.Touches (.fetch m.registers.pc) x.address ∨
      Virtual.Touches t x.address := by
  induction h with
  | done m => exact fun _ => ⟨.fetch m.registers.pc, nofun⟩
  | @next m m₁ m₂ m' a access r rs hstep hadd hrest ih =>
    intro hm
    have hmends := hm.mends hstep hadd
    obtain ⟨t, rfl | haccesses, htouches⟩ := hmends.reached
    · obtain ⟨t, ht⟩ := ih hmends.repairable
      rw [hmends.registers] at ht
      refine ⟨t, fun x hx => ?_⟩
      rcases List.mem_cons.mp hx with rfl | hx
      · exact .inl htouches
      · exact ht x hx
    · obtain ⟨v, hr⟩ := hm.represents
      have hlater := hrest.touches_of_accesses (t := t) hr hm.current hmends.repairable hmends.bus
      rw [hmends.registers] at hlater
      refine ⟨t, fun x hx => ?_⟩
      rcases List.mem_cons.mp hx with rfl | hx
      · exact .inr htouches
      · exact hlater hm.served haccesses x hx

theorem page_of_touches {t : Transfer} (h : Virtual.Touches t a) :
    a.page = Virtual.firstPage t ∨ a.page = Virtual.lastPage t := by
  rcases h with rfl | ⟨-, rfl⟩
  · exact .inl rfl
  · exact .inr rfl

/-- There are four pages that may be missed. -/
theorem Repairs.pages (h : Repairs m rs m') (hm : Repairable q m) :
    ∃ pages : List Word, pages.length = 4 ∧ ∀ x ∈ rs, x.page ∈ pages := by
  obtain ⟨t, ht⟩ := h.touches hm
  refine ⟨[Virtual.firstPage (.fetch m.registers.pc), Virtual.lastPage (.fetch m.registers.pc),
    Virtual.firstPage t, Virtual.lastPage t], rfl, fun x hx => ?_⟩
  unfold Repair.page
  rcases ht x hx with htouches | htouches
  · rcases page_of_touches htouches with hpage | hpage <;> simp [hpage]
  · rcases page_of_touches htouches with hpage | hpage <;> simp [hpage]

theorem Reached.repairable (h : m.Reached) (hq : m.bus.memory.current = some q)
    (hserved : m.bus.Serves .rom m.registers.pc ∨ m.bus.Serves .mapped m.registers.pc) :
    Repairable q m :=
  ⟨h.represents, ⟨_, h.laid⟩, hq, hserved⟩

end Machine

/-! ## A store across two pages -/

namespace TornStore

open Machine

theorem reached : ready.Reached :=
  ⟨_, _, _, _, _, _, ofDevices, rfl, run, (by decide : 1 + 0 < 2 ^ 32 - 1), withinCounts⟩

end TornStore

end PagedMachine
