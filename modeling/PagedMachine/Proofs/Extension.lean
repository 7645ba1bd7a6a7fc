import PagedMachine.Proofs.Routing

/-!
# More pages

A bus on which a process finds more than before: what it found is still there. To map
a page extends the bus, and so does an access that faults. What was fetched once is
fetched again from any extension, as long as it is not fetched from RAM, where a page
may come to lie.
-/

namespace PagedMachine

/-! ## Loads in virtual memory -/

namespace Virtual

variable {v v' w w' : Memory} {t : Transfer} {q : Word}

theorem Rewritten.current (h : Rewritten v v') : v'.current = v.current := by
  induction h with
  | refl => rfl
  | copy hm _ ih =>
    obtain ⟨pid, hc, -⟩ := Memory.find?_some.mp hm
    exact ih.trans (Memory.current_privatise hc _ _)
  | write _ _ ih => exact ih

theorem Memory.exchangeBytes_load_succ (hs : t.store = none) (hc : v.current = some q)
    {offset : Nat} {x : UInt8} (hx : v.byte? q (t.address + UInt32.ofNat offset) = some x)
    (count : Nat) : (v.exchangeBytes t offset (count + 1)).1 =
    x.toNat + 256 * (v.exchangeBytes t (offset + 1) count).1 := by
  obtain ⟨m, hm, hcontents⟩ := Memory.byte?_some.mp hx
  rw [exchangeBytes_succ ((find?_eq hc _).trans hm), exchangeBytes_load hs,
    exchangeBytes_one ((find?_eq hc _).trans hm)]
  dsimp only
  rw [hcontents]

/-- Where a process finds the same bytes, it loads the same. -/
theorem Memory.exchangeBytes_load_congr (hs : t.store = none) (hv : v.current = some q)
    (hw : w.current = some q) (count : Nat) : ∀ offset,
    (∀ i, offset ≤ i → i < offset + count → ∃ x, v.byte? q (t.address + UInt32.ofNat i) = some x ∧
      w.byte? q (t.address + UInt32.ofNat i) = some x) →
    (v.exchangeBytes t offset count).1 = (w.exchangeBytes t offset count).1 := by
  induction count with
  | zero => exact fun _ _ => rfl
  | succ count ih =>
    intro offset hbytes
    obtain ⟨x, hx, hx'⟩ := hbytes offset (Nat.le_refl _) (by omega)
    rw [exchangeBytes_load_succ hs hv hx, exchangeBytes_load_succ hs hw hx',
      ih (offset + 1) fun i hi hlt => hbytes i (by omega) (by omega)]

theorem Granted.byte? {privilege : Privilege} (hg : Granted v t privilege) (hc : v.current = some q)
    {offset : Nat} (ho : offset < t.width.bytes) :
    ∃ x, v.byte? q (t.address + UInt32.ofNat offset) = some x := by
  obtain ⟨m, hm, -⟩ := hg.grants ho
  exact ⟨_, Memory.byte?_some.mpr ⟨m, (Memory.find?_eq hc _).symm.trans hm, rfl⟩⟩

/-- Two loads answer alike if the second process finds what the first one did. -/
theorem transferMapped_load_congr {privilege privilege' : Privilege} {x y : Word}
    (hs : t.store = none) (hf : v.Fresh) (hf' : w.Fresh) (hc : v.current = some q)
    (hc' : w.current = some q) (hbytes : ∀ a z, v.byte? q a = some z → w.byte? q a = some z)
    (hx : (transferMapped t privilege).allows v (.ok x) v')
    (hy : (transferMapped t privilege').allows w (.ok y) w') : x = y := by
  obtain ⟨v₁, hp, ⟨_, he, -⟩ | ⟨hg, hvalue, -⟩⟩ := transferMapped_allows hx
  · cases he
  · obtain ⟨w₁, hp', ⟨_, he, -⟩ | ⟨-, hvalue', -⟩⟩ := transferMapped_allows hy
    · cases he
    · have hv₁ := hp.unseen hf
      have hw₁ := hp'.unseen hf'
      have hsame :=
        Memory.exchangeBytes_load_congr hs (hv₁.current.trans hc) (hw₁.current.trans hc')
          t.width.bytes 0 fun i _ hi => by
          obtain ⟨z, hz⟩ := hg.byte? (hv₁.current.trans hc) (Nat.zero_add _ ▸ hi)
          refine ⟨z, hz, ?_⟩
          rw [hw₁.bytes]
          rw [hv₁.bytes] at hz
          exact hbytes _ z hz
      rw [Except.ok.inj hvalue, Except.ok.inj hvalue', hsame]

end Virtual

/-! ## Extensions of a bus -/

namespace Bus

/-- The same layout and process, and what anybody found is still found. -/
structure Extends (b c : Bus) : Prop where
  rom : c.rom = b.rom
  regions : c.regions = b.regions
  current : c.memory.current = b.memory.current
  bytes : ∀ q a x, b.memory.byte? q a = some x → c.memory.byte? q a = some x

variable {b c b' c' d : Bus} {v w : Virtual.Bus} {t : Transfer} {r : Except Fault Word}
    {s : Registers}

theorem Extends.refl (b : Bus) : Extends b b := ⟨rfl, rfl, rfl, fun _ _ _ h => h⟩

theorem Extends.trans (h : Extends b c) (h' : Extends c d) : Extends b d :=
  ⟨h'.rom.trans h.rom, h'.regions.trans h.regions, h'.current.trans h.current,
    fun q a x hx => h'.bytes q a x (h.bytes q a x hx)⟩

theorem Extends.serves (h : Extends b c) {kind : RegionKind} {a : Word}
    (hserves : b.Serves kind a) : c.Serves kind a := by
  unfold Serves
  rw [h.regions]
  exact hserves

/-- A transfer that faults, or stores nothing, leaves every byte as it is. -/
theorem Represents.transfer_extends (hr : Represents b v) (h : Yields (transfer t) b r b')
    (hr₀ : (∃ e, r = .error e) ∨ t.store = none) :
    Extends b b' ∧ (∃ v', Represents b' v') ∧ ∀ q a, b'.memory.byte? q a = b.memory.byte? q a := by
  obtain ⟨hsame, -⟩ := hr.transfer_undisturbed h hr₀
  obtain ⟨r₁, b₁, v', hx, hy, hr', -⟩ := mirrors_transfer hr t
  obtain ⟨rfl, rfl⟩ := h.unique hx
  obtain ⟨hrewritten, hregions⟩ := Virtual.Bus.transfer_allows hy
  refine ⟨⟨hsame.rom, ?_, ?_, fun q a x hb => (hsame.bytes q a).trans hb⟩, ⟨v', hr'⟩, hsame.bytes⟩
  · rw [← hr'.regions, ← hr.regions, hregions]
  · rw [← hr'.memory.current, ← hr.memory.current, hrewritten.current]

/-- The transfer that the instruction at the program counter makes after its fetch. -/
def Accesses (b : Bus) (s : Registers) (t : Transfer) : Prop :=
  ∃ w b' i effects, Yields (Bus.fetch s.pc) b (.ok w) b' ∧ Instruction.decodeAt w s.pc = .ok i ∧
    i.opcode.unit.plan? i s = some (.access t effects)

/-- What a fetch from ROM or the window answers once, it answers on every extension. -/
theorem Represents.fetch_again (hr : Represents b v) (hr' : Represents c w) (hext : Extends b c)
    {pc x y q : Word} (hq : b.memory.current = some q)
    (hserved : b.Serves .rom pc ∨ b.Serves .mapped pc)
    (hx : Yields (fetch pc) b (.ok x) b') (hy : Yields (fetch pc) c (.ok y) c') : x = y := by
  have hholds : ∀ {region : Region} {b b' : Bus} {x : Word}, b.regions.regionOf? pc = some region →
      Yields (fetch pc) b (.ok x) b' → region.holds pc .word = true := by
    intro region b b' x hregion h
    by_cases hholds : region.holds pc .word = true
    · exact hholds
    · cases (h.eq_of_error (transfer_nowhere (.inr ⟨region, hregion, hholds⟩))).1
  rcases hserved with ⟨region, hregion, hk⟩ | ⟨region, hregion, hk⟩
  · have hregion' : c.regions.regionOf? pc = some region := hext.regions ▸ hregion
    have hpermit : region.kind.permit .execute pc = .ok () := by rw [hk]; rfl
    have hread :=
      (hx.unique (transfer_rom (t := .fetch pc) hregion hk (hholds hregion hx) hpermit)).1
    have hread' :=
      (hy.unique (transfer_rom (t := .fetch pc) hregion' hk (hholds hregion' hy) hpermit)).1
    rw [hext.rom] at hread'
    exact Except.ok.inj (hread.trans hread'.symm)
  · have hregion' : c.regions.regionOf? pc = some region := hext.regions ▸ hregion
    obtain ⟨r₁, b₁, v', hb, hspec, -⟩ := mirrors_transfer hr (.fetch pc)
    obtain ⟨rfl, -⟩ := hx.unique hb
    obtain ⟨r₁, c₁, w', hc, hspec', -⟩ := mirrors_transfer hr' (.fetch pc)
    obtain ⟨rfl, -⟩ := hy.unique hc
    obtain ⟨m, hm, -⟩ :=
      Virtual.Bus.transfer_mapped (t := .fetch pc) (hr.regions ▸ hregion) hk
        (hholds hregion hx) hspec
    obtain ⟨m', hm', -⟩ :=
      Virtual.Bus.transfer_mapped (t := .fetch pc) (hr'.regions ▸ hregion') hk
        (hholds hregion' hy) hspec'
    refine Virtual.transferMapped_load_congr rfl hr.memory.isFresh hr'.memory.isFresh
      (hr.memory.current.trans hq)
      (hr'.memory.current.trans (hext.current.trans hq)) (fun a z hz => ?_) hm hm'
    rw [hr.memory.byte?] at hz
    rw [hr'.memory.byte?]
    exact hext.bytes q a z hz

/-- An instruction that can be fetched makes the same transfer on every extension. -/
theorem Represents.accesses_again (hr : Represents b v) (hr' : Represents c w) (hext : Extends b c)
    {q : Word} (hq : b.memory.current = some q)
    (hserved : b.Serves .rom s.pc ∨ b.Serves .mapped s.pc) {t t' : Transfer}
    (h : b.Accesses s t) (h' : c.Accesses s t') : t' = t := by
  obtain ⟨x, b', i, effects, hx, hi, hplan⟩ := h
  obtain ⟨y, c', j, effects', hy, hj, hplan'⟩ := h'
  obtain rfl := hr.fetch_again hr' hext hq hserved hx hy
  obtain rfl := Except.ok.inj (hi.symm.trans hj)
  have hsame := Option.some.inj (hplan.symm.trans hplan')
  cases hsame
  rfl

end Bus

end PagedMachine
