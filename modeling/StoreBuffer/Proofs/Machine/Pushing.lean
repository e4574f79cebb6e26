import StoreBuffer.Proofs.Machine.Departures

/-! # Pushed lines

What a line is given when it is numbered, and what pushing it makes of the table, on every host. -/

namespace StoreBuffer.Machine

variable {σ : Type} {m : Machine σ}

/-- Numbers are all that a line is given. -/
theorem unnumbered_numbered {l l' : Line} (h : m.numbered l = .ok l') :
    l'.unnumbered = l.unnumbered := by
  unfold numbered at h
  simp only [bind, Except.bind, pure, Except.pure] at h
  repeat' split at h
  all_goals first | contradiction | (cases h; rfl)

theorem write?_numbered {l l' : Line} (h : m.numbered l = .ok l') : l'.write? = l.write? := by
  show l'.unnumbered.write? = l.unnumbered.write?
  rw [unnumbered_numbered h]

theorem isStore_numbered {l l' : Line} (h : m.numbered l = .ok l') : l'.isStore = l.isStore := by
  rw [Line.isStore, write?_numbered h, Line.isStore]

theorem pendingWrite?_numbered {l l' : Line} (h : m.numbered l = .ok l') :
    l'.pendingWrite? = l.pendingWrite? := by
  rw [← Line.pendingWrite?_unnumbered, unnumbered_numbered h, Line.pendingWrite?_unnumbered]

theorem order_numbered {l l' : Line} (h : m.numbered l = .ok l') : l'.order = l.order := by
  show l'.unnumbered.order = l.unnumbered.order
  rw [unnumbered_numbered h]

theorem seqNo_numbered {l l' : Line} (h : m.numbered l = .ok l') :
    if l.order.isSeqCst then m.table.nextSeqNo = .ok l'.seqNo else l'.seqNo = l.seqNo := by
  unfold numbered at h
  simp only [bind, Except.bind, pure, Except.pure] at h
  repeat' split at h
  all_goals first | contradiction | (cases h; simp_all)

theorem atomicNo_numbered {l l' : Line} (h : m.numbered l = .ok l') :
    if l.isStore && l.order.isAtomicOp then
      ∀ loc, l.loc? = some loc → m.table.nextAtomicNo loc = .ok l'.atomicNo
    else l'.atomicNo = l.atomicNo := by
  have hstore : l.isStore = l.loc?.isSome := (Option.isSome_map ..).symm
  unfold numbered at h
  simp only [bind, Except.bind, pure, Except.pure] at h
  repeat' split at h
  all_goals first | contradiction | (cases h; simp_all)

/-- A fence leaves the table alone, or is united with the newest line of its thread, or stands
behind it. -/
theorem pushFence_cases (t : ThreadId) (l : Line) (m : Machine σ) :
    (m.pushFence t l).1 = false ∧ (m.pushFence t l).2.table = m.table ∨
    ∃ b newest, m.table.buffer? t = some b ∧ b.newest? = some newest ∧
      (newest.isFence = true ∧ (m.pushFence t l).1 = false ∧
          (m.pushFence t l).2.table = m.table.modify t (fun b =>
            b.modify (b.size - 1) fun f => { f with order := f.order ||| l.order }) ∨
        newest.isFence = false ∧ (m.pushFence t l).1 = true ∧
          (m.pushFence t l).2.table = m.table.modify t (·.push l)) := by
  unfold pushFence
  cases hnewest : (m.table.buffer? t).bind (·.newest?) with
  | none => exact .inl ⟨rfl, rfl⟩
  | some newest =>
    obtain ⟨b, hb, hnewest⟩ := Option.bind_eq_some_iff.mp hnewest
    refine .inr ⟨b, newest, hb, hnewest, ?_⟩
    cases hfence : newest.isFence with
    | true => exact .inl ⟨rfl, by simp [hfence], by simp [withTable, hfence]⟩
    | false => exact .inr ⟨rfl, by simp [hfence], by simp [withTable, count, hfence]⟩

theorem config_pushFence (t : ThreadId) (l : Line) (m : Machine σ) :
    (m.pushFence t l).2.config = m.config := by
  unfold pushFence
  split
  · rfl
  · split <;> rfl

variable [Host σ]

/-- Apart from counting and logging, a pushed line is appended, and then room is made. -/
theorem pushLine_eq_evictExcess (t : ThreadId) (l : Line) (m : Machine σ) :
    ∃ m₁ : Machine σ, m₁.table = m.table.append t l ∧ m₁.host = m.host ∧ m₁.config = m.config ∧
      m.pushLine t l = (m₁.evictExcess t).withTable (m₁.evictExcess t).table.prune := by
  refine ⟨_, ?_, ?_, ?_, rfl⟩ <;> split <;> rfl

/-- A pushed line stands behind the others of its thread, then lines leave until its buffer fits. -/
theorem exists_pushLine (h : m.table.owners.Nodup) (t : ThreadId) (l : Line) :
    ∃ u, Table.Thins (fun _ => True) (m.table.append t l) u ∧ u.storesOf t ≤ m.capacity ∧
      (m.pushLine t l).table = u.prune ∧ (m.pushLine t l).config = m.config := by
  obtain ⟨m₁, htable, -, hconfig, hpush⟩ := pushLine_eq_evictExcess t l m
  have howners : m₁.table.owners.Nodup := by
    rw [htable]
    exact Table.nodup_owners_append h t l
  have hsheds := sheds_evictExcess howners t
  refine ⟨(m₁.evictExcess t).table, ?_, ?_, ?_, ?_⟩
  · rw [← htable]
    exact hsheds.table
  · have hfits := storesOf_evictExcess_le howners t
    rwa [capacity, hconfig] at hfits
  · rw [hpush]
    rfl
  · rw [hpush]
    exact hsheds.config.trans hconfig

end StoreBuffer.Machine
