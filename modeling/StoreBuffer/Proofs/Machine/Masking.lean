import StoreBuffer.Proofs.Host.Watched
import StoreBuffer.Proofs.Machine.Transfer
import StoreBuffer.Proofs.Reference.Direct

/-! # Masking and bypass

Whatever a host does with its other flags, all that an operation asks of it is asked with the mask
raised, and the mask is put back on every way out. Flags that ask for a bypass are looked at once, at
the start; the operation then is one of the memory alone and leaves the buffers alone. -/

namespace StoreBuffer

/-- A direct access makes no choice. -/
theorem Direct.unasked {σ : Type} [Host σ] {h h' : Watched σ} {op : Op} {o : Outcome}
    (hp : Direct h op o h') (hh : ∀ v ∈ h.visits, v.service.isChoice = false) :
    ∀ v ∈ h'.visits, v.service.isChoice = false := by
  cases hp with
  | store | load | different => exact List.forall_mem_cons.mpr ⟨rfl, hh⟩
  | swapped => exact List.forall_mem_cons.mpr ⟨rfl, List.forall_mem_cons.mpr ⟨rfl, hh⟩⟩
  | fence | invalid => exact hh

namespace Machine

variable {σ : Type} [Host σ] {m : Machine σ}

/-! ## Bypassed accesses -/

/-- The result of a direct access to the memory of the host, with the buffers as they were. -/
structure GivesDirect (m : Machine σ) (op : Op) (r : Outcome × Machine σ) : Prop where
  direct : Direct m.host op r.1 r.2.host
  table : r.2.table = m.table

theorem GivesDirect.noteOperation {op : Op} {o : Outcome} {m' : Machine σ}
    (h : m.GivesDirect op (o, m')) (e : Event) : m.GivesDirect op (o, m'.noteOperation e) := by
  obtain ⟨log, hlog⟩ := noteOperation_eq (m := m') e
  rw [hlog]
  exact ⟨h.direct, h.table⟩

theorem storeAs_bypassed {l : Location} (hl : l.Valid) (v : UInt64) (r : Order) :
    m.storeAs l v r true = (.ok (), m.storeDirect ⟨l, v⟩) := by
  unfold storeAs
  rw [(Location.check_eq_ok_iff l).mpr hl]
  rfl

theorem loadAs_unchecked {l : Location} {f : Fault} (hl : l.check = .error f) (direct : Bool) :
    m.loadAs l direct = (.error f, m) := by
  unfold loadAs
  rw [hl]

theorem loadAs_bypassed {l : Location} (hl : l.Valid) :
    m.loadAs l true = (.ok (Memory.load l m.host).1,
      (m.count fun s => { s with loads := s.loads + 1 }).withHost (Memory.load l m.host).2) := by
  unfold loadAs
  rw [(Location.check_eq_ok_iff l).mpr hl]
  rfl

theorem swapAs_bypassed {l : Location} (hl : l.Valid) (e v observed : UInt64) (r : Order) :
    m.swapAs l e v observed r true = (.ok (Width.truncate l.width v, true),
      (m.storeDirect ⟨l, v⟩).noteOperation (.casDone m.thread l.addr e v r)) := by
  -- even a weak one asks for no choice
  have hunasked : m.withHost m.host = m := rfl
  unfold swapAs
  simp only [Bool.not_true, Bool.false_and, Bool.false_eq_true, if_false]
  rw [hunasked, storeAs_bypassed hl]
  rfl

theorem givesDirect_store (l : Location) (v : UInt64) (r r' : Order) :
    m.GivesDirect (.store l v r) ((m.storeAs l v r' true).1.map fun _ => .done,
      (m.storeAs l v r' true).2) := by
  cases hcheck : l.check with
  | error f =>
    have herr : m.storeAs l v r' true = (.error f, m) := by
      unfold storeAs
      rw [hcheck]
    rw [herr]
    exact ⟨.invalid (List.mem_singleton.mpr rfl) hcheck, rfl⟩
  | ok u =>
    have hl := (Location.check_eq_ok_iff l).mp hcheck
    rw [storeAs_bypassed hl]
    exact ⟨.store hl, rfl⟩

/-- What a bypassed operation amounts to between raising the mask and putting it back. -/
structure Bypasses (m : Machine σ) (op : Op) : Prop where
  direct : ∃ h, Direct (Host.hold m.host).2 op (m.perform op).1 h ∧
    (m.perform op).2.host = Host.release (Host.flags m.host) h
  table : (m.perform op).2.table = m.table

theorem bypasses_of_masked (hflags : (Host.flags m.host).bypassed = true) {m₀ : Machine σ}
    (hhost : m₀.host = m.host) (htable : m₀.table = m.table) {op : Op} {α : Type}
    {body : Bool → Machine σ → α × Machine σ} {f : α → Outcome}
    (hperform : m.perform op = (f (m₀.masked body).1, (m₀.masked body).2))
    (hbody : ∀ m' : Machine σ, m'.GivesDirect op (f (body true m').1, (body true m').2)) :
    m.Bypasses op := by
  have hmasked : m₀.masked body = ((body true (m₀.withHost (Host.hold m.host).2)).1,
      (body true (m₀.withHost (Host.hold m.host).2)).2.withHost (Host.release (Host.flags m.host)
        (body true (m₀.withHost (Host.hold m.host).2)).2.host)) := by
    unfold masked
    dsimp only
    rw [hhost, show (Host.hold m.host).1.bypassed = true from hflags]
    rfl
  have hgives := hbody (m₀.withHost (Host.hold m.host).2)
  rw [hmasked] at hperform
  constructor
  · rw [hperform]
    exact ⟨_, hgives.direct, rfl⟩
  · rw [hperform]
    exact hgives.table.trans htable

/-- With a bypass flag up, an access is one of the host's memory, and the buffers are not touched. -/
theorem perform_bypassed (hflags : (Host.flags m.host).bypassed = true) {op : Op}
    (hop : op.isAccess = true) : m.Bypasses op := by
  cases op with
  | store l v r =>
    obtain ⟨log, hnoted⟩ := noteOperation_eq (m := m) (.storeIssued m.thread l v (r ||| m.minOrder))
    refine bypasses_of_masked hflags (host_noteOperation _) (by rw [hnoted]) rfl fun m' => ?_
    exact givesDirect_store l v r _
  | load l r =>
    refine bypasses_of_masked hflags rfl rfl rfl fun m' => ?_
    cases hcheck : l.check with
    | error f =>
      rw [loadAs_unchecked hcheck true]
      exact ⟨.invalid (List.mem_singleton.mpr rfl) hcheck, rfl⟩
    | ok u =>
      have hl := (Location.check_eq_ok_iff l).mp hcheck
      have hgives : m'.GivesDirect (.load l r) (.ok (.value (Memory.load l m'.host).1),
        (m'.count fun s => { s with loads := s.loads + 1 }).withHost (Memory.load l m'.host).2) :=
        ⟨.load hl, rfl⟩
      rw [loadAs_bypassed hl]
      exact hgives.noteOperation _
  | fence r =>
    refine bypasses_of_masked (f := fun _ => .ok .done) hflags rfl rfl rfl fun m' => ?_
    exact ⟨.fence, rfl⟩
  | cas l e v a b =>
    refine bypasses_of_masked hflags rfl rfl rfl fun m' => ?_
    cases hcheck : l.check with
    | error f =>
      rw [loadAs_unchecked hcheck true]
      exact ⟨.invalid (List.mem_singleton.mpr rfl) hcheck, rfl⟩
    | ok u =>
      have hl := (Location.check_eq_ok_iff l).mp hcheck
      rw [loadAs_bypassed hl]
      dsimp only
      generalize hloaded : (m'.count fun s => { s with loads := s.loads + 1 }).withHost
        (Memory.load l m'.host).2 = m₁
      have hhost : m₁.host = (Memory.load l m'.host).2 := hloaded ▸ rfl
      have htable : m₁.table = m'.table := hloaded ▸ rfl
      by_cases heq : (Memory.load l m'.host).1 = Width.truncate l.width e
      · have hgives : m'.GivesDirect (.cas l e v a b)
            (.ok (.swap (Width.truncate l.width v) true), m₁.storeDirect ⟨l, v⟩) := by
          refine ⟨?_, htable⟩
          have hswapped : Direct m'.host (.cas l e v a b) _ _ := .swapped hl heq
          rwa [← hhost] at hswapped
        rw [if_pos heq, swapAs_bypassed hl]
        exact hgives.noteOperation _
      · have hgives : m'.GivesDirect (.cas l e v a b)
            (.ok (.swap (Memory.load l m'.host).1 false),
              m₁.count fun s => { s with casValueFailures := s.casValueFailures + 1 }) := by
          refine ⟨?_, htable⟩
          have hdifferent : Direct m'.host (.cas l e v a b) _ _ := .different hl heq
          rwa [← hhost] at hdifferent
        rw [if_neg heq]
        exact hgives.noteOperation _
  | _ => contradiction

/-! ## The mask -/

/-- The machine on a watched host that has not been called yet. -/
def watched (m : Machine σ) : Machine (Watched σ) :=
  { toSession := m.toSession, host := ⟨m.host, []⟩, log := m.log }

/-- The calls that an operation makes, latest first. -/
def visits (m : Machine σ) (op : Op) : List Visit := (m.watched.perform op).2.host.visits

/-- Watched or not, an operation does the same, and the host comes out of it restored. -/
theorem restored_perform (hσ : Host.KeepsMask σ) (m : Machine σ) (op : Op) :
    Both (Like fun (h : Watched σ) (k : σ) => h.inner = k ∧ Watched.Restored (Host.flags m.host) h)
      (m.watched.perform op) (m.perform op) := by
  have hlike : Like (fun (h : Watched σ) (k : σ) => h = ⟨m.host, []⟩ ∧ k = m.host) m.watched m :=
    ⟨rfl, rfl, rfl, rfl⟩
  refine Like.perform (Watched.calls_inside hσ (Host.flags m.host)) ?_ ?_ ?_ hlike op
  · rintro _ _ ⟨rfl, rfl⟩
    exact ⟨rfl, rfl, rfl, .hold hσ m.host⟩
  · rintro _ _ h _ ⟨rfl, rfl⟩ ⟨rfl, hh⟩
    exact ⟨rfl, hh.release hσ⟩
  · rintro _ _ ⟨rfl, rfl⟩
    exact ⟨rfl, Watched.restored_nil m.host⟩

/-- How an operation treats the control flags of its host. -/
structure Framed (m : Machine σ) (op : Op) : Prop where
  /-- Watching the host changes nothing, so that the visits are the operation's own calls. -/
  same : Both (Like fun (h : Watched σ) (k : σ) => h.inner = k) (m.watched.perform op) (m.perform op)
  /-- Every choice, every memory access and every look at the objects is asked for masked. -/
  masked : ∀ v ∈ m.visits op, v.before.contains .mask = true
  mask : (Host.flags (m.perform op).2.host).contains .mask = (Host.flags m.host).contains .mask
  others : ∀ i, 0 < i → i < 64 → (Host.flags (m.perform op).2.host).bit i =
    (Visit.left (Host.flags m.host) (m.visits op)).bit i
  bypassed : (Host.flags m.host).bypassed = true → op.isAccess = true →
    (∀ v ∈ m.visits op, v.service.isChoice = false) ∧ m.Bypasses op

theorem framed (hσ : Host.KeepsMask σ) (m : Machine σ) (op : Op) : m.Framed op := by
  obtain ⟨hanswer, hsession, hlog, hinner, hrestored⟩ := restored_perform hσ m op
  refine ⟨⟨hanswer, hsession, hlog, hinner⟩, hrestored.masked, ?_, ?_, fun hflags hop => ?_⟩
  · rw [← hinner]
    exact hrestored.mask
  · rw [← hinner]
    exact hrestored.others
  -- the watched run is bypassed as well, so its host has been through memory accesses only
  · obtain ⟨h, hdirect, hhost⟩ := (perform_bypassed (m := m.watched) hflags hop).direct
    refine ⟨?_, perform_bypassed hflags hop⟩
    unfold visits
    rw [hhost]
    exact hdirect.unasked nofun

end Machine

/-! ## Two hosts -/

namespace Scripted

theorem flags_read (size : AccessSize) (a : Addr) (h : Scripted) :
    (read size a h).2.flags = h.flags := by
  unfold read
  split <;> rfl

theorem flags_write (size : AccessSize) (a : Addr) (value : UInt64) (h : Scripted) :
    (write size a value h).flags = h.flags := by
  have hframe := congrArg Scripted.flags (frame_write size a value h)
  exact hframe

theorem calls_flags (f : ControlFlags) : Host.Calls fun h k : Scripted => h = k ∧ h.flags = f where
  thread := by
    rintro h _ ⟨rfl, -⟩
    rfl
  choose n := by
    rintro ⟨rfl, hf⟩
    exact ⟨rfl, rfl, hf⟩
  objectAt a := by
    rintro ⟨rfl, hf⟩
    exact ⟨rfl, rfl, hf⟩
  read size a := by
    rintro ⟨rfl, hf⟩
    exact ⟨rfl, rfl, (flags_read size a _).trans hf⟩
  write size a value := by
    rintro ⟨rfl, hf⟩
    exact ⟨rfl, (flags_write size a value _).trans hf⟩

end Scripted

/-- A scripted host on which every call turns the kernel mode on. -/
structure Restless where
  inner : Scripted

namespace Restless

/-- What a call leaves. -/
def stir (h : Scripted) : Restless := ⟨{ h with flags := h.flags ||| .kernelMode }⟩

instance : Host Restless where
  read size a h := ((Scripted.read size a h.inner).1, stir (Scripted.read size a h.inner).2)
  write size a value h := stir (Scripted.write size a value h.inner)
  choose n h := ((Scripted.choose n h.inner).1, stir (Scripted.choose n h.inner).2)
  flags h := h.inner.flags
  setFlags f h := ⟨{ h.inner with flags := f }⟩
  thread h := h.inner.thread
  objectAt a h := (h.inner.objects.containing? a, stir h.inner)
  choose_lt n h hn := Host.choose_lt n h.inner hn

theorem contains_mask_stir (h : Scripted) :
    (stir h).inner.flags.contains .mask = h.flags.contains .mask := by
  show (h.flags ||| .kernelMode).contains .mask = _
  rw [ControlFlags.contains_mask, ControlFlags.contains_mask, ControlFlags.bit_or,
    show ControlFlags.kernelMode.bit 0 = false from rfl, Bool.or_false]

theorem keepsMask : Host.KeepsMask Restless where
  setFlags _ _ := rfl
  read size a h := by
    show (stir (Scripted.read size a h.inner).2).inner.flags.contains .mask = _
    rw [contains_mask_stir, Scripted.flags_read]
    rfl
  write size a value h := by
    show (stir (Scripted.write size a value h.inner)).inner.flags.contains .mask = _
    rw [contains_mask_stir, Scripted.flags_write]
    rfl
  choose n h := contains_mask_stir _
  objectAt a h := contains_mask_stir _

end Restless

namespace Machine

theorem flags_perform (m : Machine Scripted) (op : Op) :
    (m.perform op).2.host.flags = m.host.flags := by
  have hlike : Like (fun h k : Scripted => h = k ∧ h.flags = m.host.flags) m m := ⟨rfl, rfl, rfl, rfl⟩
  have hboth : Both (Like fun h k : Scripted => h = k ∧ h.flags = m.host.flags) (m.perform op)
      (m.perform op) := by
    refine Like.perform (Scripted.calls_flags (m.host.flags ||| .mask)) ?_ ?_ id hlike op
    · rintro h _ ⟨rfl, hf⟩
      exact ⟨rfl, rfl, rfl, congrArg (· ||| .mask) hf⟩
    · rintro h _ h' _ ⟨rfl, hf⟩ ⟨rfl, hf'⟩
      refine ⟨rfl, ?_⟩
      show h'.flags.unmask h.flags = _
      rw [hf, hf', ControlFlags.unmask_or_mask]
  exact hboth.next.host.2

/-- On every host whose calls leave the mask flag alone, every operation works masked and puts the
mask back, whatever becomes of the other flags, and an access that starts with a bypass flag up is a
direct one. On the scripted host the flags come out as they went in, and a bypassed access in the
arena is one of flat memory. -/
theorem masks_and_restores :
    (∀ {σ : Type} [Host σ], Host.KeepsMask σ → ∀ (m : Machine σ) (op : Op), m.Framed op) ∧
      ∀ (m : Machine Scripted) (op : Op), (m.perform op).2.host.flags = m.host.flags ∧
        (m.host.flags.bypassed = true → op.isAccess = true → m.host.Fits →
          (∀ l ∈ op.locations, l.Valid → m.host.Covers l) →
            Direct m.host.image op (m.perform op).1 (m.perform op).2.host.image) := by
  refine ⟨framed, fun m op => ⟨flags_perform m op, fun hflags hop hfit hc => ?_⟩⟩
  obtain ⟨h, hdirect, hhost⟩ := (perform_bypassed (m := m) hflags hop).direct
  rw [hhost]
  exact hdirect.image hfit hc

/-- A load whose host turns the kernel mode on at the first call still drains the other thread's
store and reads it. It leaves the mask as it was and the kernel mode on. A masked store in debug
mode goes to memory past a buffered one. -/
theorem masks_and_restores_restless :
    let x : Location := ⟨⟨0x10000000⟩, 32⟩
    let h : Scripted := { Scripted.create 16 with script := [1], thread := ⟨1⟩ }
    let m := ((create {} (⟨h⟩ : Restless)).perform (.store x 7 .release)).2.withHost
      ⟨{ h with thread := ⟨2⟩ }⟩
    let p := ((create {} h).perform (.store x 7 .release)).2.withHost
      { h with flags := .debugMode ||| .mask }
    (((m.visits (.load x .acquire)).map fun v => (v.service, v.before, v.after)) =
        [(.read .four x.addr, ⟨3⟩, ⟨3⟩), (.write .four x.addr 7, ⟨3⟩, ⟨3⟩), (.choose 2, ⟨1⟩, ⟨3⟩)] ∧
      (m.perform (.load x .acquire)).1 = .ok (.value 7) ∧
      (m.perform (.load x .acquire)).2.host.inner.flags = .kernelMode) ∧
    m.Framed (.load x .acquire) ∧
    ((p.perform (.store x 8 .release)).2.table.slots.length = 1 ∧
      (p.perform (.store x 8 .release)).2.host.image x.addr = 8) ∧
    (p.perform (.store x 8 .release)).2.host.flags = .debugMode ||| .mask ∧
    Direct p.host.image (.store x 8 .release) (p.perform (.store x 8 .release)).1
      (p.perform (.store x 8 .release)).2.host.image :=
  ⟨by decide +kernel, masks_and_restores.1 Restless.keepsMask _ _, by decide +kernel,
    (masks_and_restores.2 _ _).1,
    (masks_and_restores.2 _ _).2 (by decide +kernel) rfl
      (by unfold Scripted.Fits; decide +kernel) (by decide +kernel)⟩

end Machine

end StoreBuffer
