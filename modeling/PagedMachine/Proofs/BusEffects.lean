import PagedMachine.Proofs.HostStores
import PagedMachine.Proofs.Sharing

/-!
# What an operation of the bus changes

Transfers and host stores change contents and make pages private; they map
nothing and unmap nothing. In the window each is what it is in virtual memory.
-/

namespace PagedMachine.Virtual

/-- Pages became private and contents changed, in any order. -/
inductive Rewritten : Memory → Memory → Prop
  | refl (v : Memory) : Rewritten v v
  | copy {v v' : Memory} {page : Word} {m : Mapping} :
      v.find? page = some m → Rewritten (v.privatise page m) v' → Rewritten v v'
  | write {v v' : Memory} (contents : Nat → Fin pageSize → UInt8) :
      Rewritten { v with contents := contents } v' → Rewritten v v'

section
variable {v v' v'' : Memory}

theorem Rewritten.trans (h : Rewritten v v') (h' : Rewritten v' v'') : Rewritten v v'' := by
  induction h with
  | refl => exact h'
  | copy hm _ ih => exact .copy hm (ih h')
  | write contents _ ih => exact .write contents (ih h')

theorem Privatised.rewritten (h : Privatised v v') : Rewritten v v' := by
  induction h with
  | refl v => exact .refl v
  | next hm _ ih => exact .copy hm ih

theorem Rewritten.nextPid (h : Rewritten v v') : v'.nextPid = v.nextPid := by
  induction h with
  | refl => rfl
  | copy _ _ ih => exact ih.trans (Memory.nextPid_privatise _ _ _)
  | write _ _ ih => exact ih

theorem Rewritten.guarded (h : Rewritten v v') (hf : v.Fresh) (hg : v.Guarded) : v'.Guarded := by
  induction h with
  | refl => exact hg
  | copy hm _ ih =>
    obtain ⟨pid, hc, hm'⟩ := Memory.find?_some.mp hm
    exact ih (Memory.fresh_privatise hc hm' hf) (Memory.guarded_privatise hc hm' hf hg)
  | write contents _ ih => exact ih hf hg

end

namespace Bus

variable {v v' : Bus} {t : Transfer} {region : Region}

/-- A transfer that no mapping serves leaves the mappings alone. -/
theorem transfer_allows {r : Except Fault Word} (h : (transfer t).allows v r v') :
    Rewritten v.memory v'.memory ∧ v'.regions = v.regions := by
  replace h := Behaviour.allows_get_bind.mp h
  cases hr : v.regions.regionOf? t.address with
  | none =>
    rw [hr] at h
    exact h.2 ▸ ⟨.refl _, rfl⟩
  | some region =>
    rw [hr] at h
    dsimp only at h
    split at h
    · rcases Behaviour.allows_bind.mp h with ⟨_, w, ⟨-, rfl⟩, hrest⟩ | ⟨e, -, -, rfl⟩
      · -- ROM stays as it is, RAM gets other bytes at most, and in the window pages become
        -- private first
        cases hk : region.kind with
        | rom =>
          rw [hk] at hrest
          exact (Behaviour.allows_get_bind.mp hrest).2 ▸ ⟨.refl _, rfl⟩
        | ram =>
          rw [hk] at hrest
          rcases hrest with rfl | ⟨-, contents, rfl⟩
          · exact ⟨.refl _, rfl⟩
          · exact ⟨.write contents (.refl _), rfl⟩
        | mapped =>
          rw [hk] at hrest
          obtain ⟨m, hm, rfl⟩ := Behaviour.allows_get_bind.mp hrest
          obtain ⟨v₁, hp, ⟨e, -, -, rfl⟩ | ⟨-, -, rfl⟩⟩ := transferMapped_allows hm
          · exact ⟨hp.rewritten, rfl⟩
          · obtain ⟨contents, he⟩ := Memory.exchangeBytes_eq t t.width.bytes v₁ 0
            rw [he]
            exact ⟨hp.rewritten.trans (.write contents (.refl _)), rfl⟩
      · exact ⟨.refl _, rfl⟩
    · exact h.2 ▸ ⟨.refl _, rfl⟩

/-- In the window a transfer is one of virtual memory, if it does not leave the window. -/
theorem transfer_window {r : Except Fault Word} (hr : v.regions.regionOf? t.address = some region)
    (hk : region.kind = .mapped) (h : (transfer t).allows v r v') :
    (∃ e, r = .error e ∧ v' = v) ∨
      ∃ m, (transferMapped t v.privilege).allows v.memory r m ∧ v' = { v with memory := m } := by
  replace h := Behaviour.allows_get_bind.mp h
  rw [hr] at h
  dsimp only at h
  split at h
  · rw [hk] at h
    rcases Behaviour.allows_bind.mp h with ⟨_, w, ⟨-, rfl⟩, hrest⟩ | ⟨e, hre, -, rfl⟩
    · exact .inr (Behaviour.allows_get_bind.mp hrest)
    · exact .inl ⟨e, hre, rfl⟩
  · exact .inl ⟨_, h.1, h.2⟩

/-- Outside of the window a transfer changes nothing, unless it stores in RAM. -/
theorem transfer_outside {r : Except Fault Word}
    (hr : ∀ region, v.regions.regionOf? t.address = some region →
      region.kind ≠ .mapped ∧ (region.kind = .ram → t.store = none))
    (h : (transfer t).allows v r v') : v' = v := by
  replace h := Behaviour.allows_get_bind.mp h
  cases hreg : v.regions.regionOf? t.address with
  | none =>
    rw [hreg] at h
    exact h.2
  | some region =>
    rw [hreg] at h
    dsimp only at h
    split at h
    · obtain ⟨hwindow, hram⟩ := hr region hreg
      rcases Behaviour.allows_bind.mp h with ⟨_, w, ⟨-, rfl⟩, hrest⟩ | ⟨e, -, -, rfl⟩
      · cases hk : region.kind with
        | rom =>
          rw [hk] at hrest
          exact (Behaviour.allows_get_bind.mp hrest).2
        | ram =>
          rw [hk, hram hk] at hrest
          exact hrest.resolve_right nofun
        | mapped => exact absurd hk hwindow
      · rfl
    · exact h.2

/-- What stores nothing changes no byte that anybody finds. -/
theorem transfer_load {r : Except Fault Word} (hs : t.store = none) (hf : v.memory.Fresh)
    (h : (transfer t).allows v r v') (q a : Word) : v'.memory.byte? q a = v.memory.byte? q a := by
  by_cases hwindow : ∃ region, v.regions.regionOf? t.address = some region ∧ region.kind = .mapped
  · obtain ⟨region, hr, hk⟩ := hwindow
    rcases transfer_window hr hk h with ⟨e, -, rfl⟩ | ⟨m, hm, rfl⟩
    · rfl
    · obtain ⟨v₁, hp, ⟨e, -, -, rfl⟩ | ⟨-, -, rfl⟩⟩ := transferMapped_allows hm
      · exact (hp.unseen hf).bytes q a
      · rw [Memory.exchangeBytes_load hs]
        exact (hp.unseen hf).bytes q a
  · rw [transfer_outside (fun region hr => ⟨fun hk => hwindow ⟨region, hr, hk⟩, fun _ => hs⟩) h]

/-! ## Stores of the host -/

section
variable {address : Word} {byte : UInt8} {r : Except Fault Unit}

theorem loadByteMapped_allows {v v' : Memory} (h : (loadByteMapped address byte).allows v r v') :
    (∃ m, v.find? address.page = some m ∧ r = .ok () ∧
      v' = (v.resolved address.page m .write).storeAt address byte) ∨
      ∃ e, r = .error e ∧ v' = v := by
  rcases Behaviour.allows_bind.mp h with ⟨_, w, hx, rfl, rfl⟩ | ⟨e, rfl, hx⟩
  · rcases resolveHostWrite_allows hx with ⟨m, hm, -, rfl⟩ | ⟨e, he, -⟩
    · exact .inl ⟨m, hm, rfl, rfl⟩
    · cases he
  · rcases resolveHostWrite_allows hx with ⟨m, hm, he, -⟩ | ⟨e', -, -, rfl⟩
    · cases he
    · exact .inr ⟨e, rfl, rfl⟩

theorem loadByte_allows (h : (loadByte address byte).allows v r v') :
    Rewritten v.memory v'.memory ∧ v'.regions = v.regions := by
  replace h := Behaviour.allows_get_bind.mp h
  cases hr : v.regions.regionOf? address with
  | none =>
    rw [hr] at h
    exact h.2 ▸ ⟨.refl _, rfl⟩
  | some region =>
    rw [hr] at h
    dsimp only at h
    cases hk : region.kind with
    | rom =>
      rw [hk] at h
      obtain ⟨rom, -, rfl⟩ := h
      exact ⟨.refl _, rfl⟩
    | ram =>
      rw [hk] at h
      rcases h with rfl | ⟨-, contents, rfl⟩
      · exact ⟨.refl _, rfl⟩
      · exact ⟨.write contents (.refl _), rfl⟩
    | mapped =>
      rw [hk] at h
      obtain ⟨m, hm, rfl⟩ := h
      rcases loadByteMapped_allows hm with ⟨mp, hmp, -, rfl⟩ | ⟨e, -, rfl⟩
      · obtain ⟨contents, he⟩ :=
          Memory.storeAt_eq (v.memory.resolved address.page mp .write) address byte
        rw [he]
        exact ⟨(Memory.privatised_resolved hmp .write).rewritten.trans (.write contents (.refl _)),
          rfl⟩
      · exact ⟨.refl _, rfl⟩

theorem loadBytes_allows (bytes : List UInt8) : ∀ {v : Bus} {address : Word},
    (loadBytes address bytes).allows v r v' → Rewritten v.memory v'.memory := by
  induction bytes with
  | nil =>
    rintro v address ⟨-, rfl⟩
    exact .refl _
  | cons byte bytes ih =>
    intro v address h
    rcases Behaviour.allows_bind.mp h with ⟨_, w, hx, hrest⟩ | ⟨e, -, hx⟩
    · exact (loadByte_allows hx).1.trans (ih hrest)
    · exact (loadByte_allows hx).1

theorem loadImage_allows {image : List UInt8} (h : (loadImage address image).allows v r v') :
    Rewritten v.memory v'.memory := by
  unfold loadImage at h
  split at h
  · exact loadBytes_allows image h
  · exact h.2 ▸ .refl _

theorem loadByte_window {region : Region} (hr : v.regions.regionOf? address = some region)
    (hk : region.kind = .mapped) (h : (loadByte address byte).allows v r v') :
    ∃ m, (loadByteMapped address byte).allows v.memory r m ∧ v' = { v with memory := m } := by
  replace h := Behaviour.allows_get_bind.mp h
  rw [hr] at h
  dsimp only at h
  rw [hk] at h
  exact h

theorem loadBytes_window (bytes : List UInt8) : ∀ {v : Bus} {address : Word},
    (∀ i < bytes.length, ∃ region, v.regions.regionOf? (address + UInt32.ofNat i) = some region ∧
      region.kind = .mapped) → (loadBytes address bytes).allows v r v' →
    ∃ n ≤ bytes.length, (r.isOk → n = bytes.length) ∧
      Loads v.memory address (bytes.take n) v'.memory := by
  induction bytes with
  | nil =>
    rintro v address - ⟨-, rfl⟩
    exact ⟨0, Nat.le_refl _, fun _ => rfl, .nil _ _⟩
  | cons byte bytes ih =>
    intro v address hwindow h
    obtain ⟨region, hr, hk⟩ := hwindow 0 (Nat.succ_pos _)
    have hzero : address + UInt32.ofNat 0 = address := UInt32.add_zero _
    rw [hzero] at hr
    rcases Behaviour.allows_bind.mp h with ⟨_, w, hx, hrest⟩ | ⟨e, rfl, hx⟩
    · obtain ⟨m, hm, rfl⟩ := loadByte_window hr hk hx
      rcases loadByteMapped_allows hm with ⟨mp, hmp, -, rfl⟩ | ⟨e, he, -⟩
      · have hnext : ∀ i < bytes.length, ∃ region,
            v.regions.regionOf? (address + 1 + UInt32.ofNat i) = some region ∧
            region.kind = .mapped := by
          intro i hi
          rw [Word.add_succ]
          exact hwindow (i + 1) (Nat.succ_lt_succ hi)
        obtain ⟨n, hn, hok, hloads⟩ := by exact ih (by exact hnext) hrest
        exact ⟨n + 1, Nat.succ_le_succ hn, fun h => congrArg _ (hok h), .cons hmp hloads⟩
      · cases he
    · obtain ⟨m, hm, rfl⟩ := loadByte_window hr hk hx
      rcases loadByteMapped_allows hm with ⟨mp, -, he, -⟩ | ⟨e', -, rfl⟩
      · cases he
      · exact ⟨0, Nat.zero_le _, nofun, .nil _ _⟩

end

/-! ## Steps -/

variable {op : Operation} {r : Except Fault Answer}

/-- An operation of the bus that is none of paged memory only rewrites pages. -/
theorem perform_allows (h : (perform op).allows v r v') :
    (∃ p, op = .paging p ∧ (Virtual.perform p).allows v.memory r v'.memory) ∨
      Rewritten v.memory v'.memory ∧ created r = 0 := by
  cases op with
  | paging p =>
    obtain ⟨m, hm, rfl⟩ := h
    exact .inl ⟨p, rfl, hm⟩
  | setPrivilege privilege =>
    obtain ⟨rfl, rfl⟩ := Behaviour.allows_modify_bind.mp h
    exact .inr ⟨.refl _, rfl⟩
  | loadImage base image =>
    obtain ⟨r₀, rfl, hx⟩ := Behaviour.allows_map.mp h
    exact .inr ⟨loadImage_allows hx, by cases r₀ <;> rfl⟩
  | read address width =>
    obtain ⟨r₀, rfl, hx⟩ := Behaviour.allows_map.mp h
    exact .inr ⟨(transfer_allows hx).1, by cases r₀ <;> rfl⟩
  | fetch address =>
    obtain ⟨r₀, rfl, hx⟩ := Behaviour.allows_map.mp h
    exact .inr ⟨(transfer_allows hx).1, by cases r₀ <;> rfl⟩
  | write address width value =>
    obtain ⟨r₀, rfl, hx⟩ := Behaviour.allows_map.mp h
    exact .inr ⟨(transfer_allows hx).1, by cases r₀ <;> rfl⟩
  | swap address width value =>
    obtain ⟨r₀, rfl, hx⟩ := Behaviour.allows_map.mp h
    exact .inr ⟨(transfer_allows hx).1, by cases r₀ <;> rfl⟩

end Bus

end PagedMachine.Virtual
