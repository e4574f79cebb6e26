import StoreBuffer.Proofs.Machine.Faults
import StoreBuffer.Proofs.Machine.ReadBack

/-! # Who gets a slot

Lines come in for the running thread only, so an operation opens a slot for no other
(`Machine.enrols_perform`). -/

namespace StoreBuffer

namespace Table

variable {t t' t'' : Table} {o : ThreadId}

/-- No thread has two slots, and none but `o` has got one that it did not have. -/
structure Enrols (o : ThreadId) (t t' : Table) : Prop where
  owners : t'.owners.Nodup
  subset : ∀ u ∈ t'.owners, u ∈ t.owners ∨ u = o

theorem Enrols.refl (h : t.owners.Nodup) (o : ThreadId) : Enrols o t t := ⟨h, fun _ => .inl⟩

theorem Enrols.trans (h : Enrols o t t') (h' : Enrols o t' t'') : Enrols o t t'' :=
  ⟨h'.owners, fun u hu => (h'.subset u hu).elim (h.subset u) .inr⟩

/-- The only owner stays the only one. -/
theorem Enrols.sole (h : Enrols o t t') (hsole : ∀ u ∈ t.owners, u = o) : ∀ u ∈ t'.owners, u = o :=
  fun u hu => (h.subset u hu).elim (hsole u) id

theorem Thins.enrols {may : ThreadId → Prop} (h : Thins may t t') (hn : t.owners.Nodup)
    (o : ThreadId) : Enrols o t t' :=
  ⟨h.nodup_owners hn, fun _ hu => .inl (h.sublist_owners.subset hu)⟩

theorem enrols_append (h : t.owners.Nodup) (o : ThreadId) (l : Line) :
    Enrols o t (t.append o l) := by
  refine ⟨nodup_owners_append h o l, fun u hu => ?_⟩
  unfold append at hu
  split at hu
  · rw [owners_modify] at hu
    exact .inl hu
  · simpa [owners] using hu

theorem enrols_prune (h : t.owners.Nodup) (o : ThreadId) : Enrols o t t.prune :=
  ⟨nodup_owners_prune h, fun _ hu => .inl ((List.filter_sublist.map _).subset hu)⟩

end Table

namespace Machine

open Table (Enrols)

section

variable {σ : Type} {m : Machine σ}

theorem enrols_pushFence (h : m.table.owners.Nodup) (o : ThreadId) (l : Line) :
    Enrols o m.table (m.pushFence o l).2.table := by
  have howners : (m.pushFence o l).2.table.owners = m.table.owners := by
    obtain ⟨-, htable⟩ | ⟨_, _, _, _, ⟨-, -, htable⟩ | ⟨-, -, htable⟩⟩ := pushFence_cases o l m
    · rw [htable]
    · rw [htable, Table.owners_modify]
    · rw [htable, Table.owners_modify]
  exact ⟨howners ▸ h, fun _ hu => .inl (howners ▸ hu)⟩

variable [Host σ]

theorem enrols_push (h : m.table.owners.Nodup) (o : ThreadId) (l : Line) :
    Enrols o m.table (m.push o l).2.table := by
  unfold push
  cases m.numbered l with
  | error f => exact .refl h o
  | ok l' =>
    obtain ⟨u, hthins, -, htable, -⟩ := exists_pushLine h o l'
    have happended := Table.enrols_append h o l'
    have hthinned := happended.trans (hthins.enrols happended.owners o)
    rw [htable]
    exact hthinned.trans (Table.enrols_prune hthinned.owners o)

theorem enrols_dropObjects (h : m.table.owners.Nodup) (t o : ThreadId) (ptrs : List Addr) :
    Enrols o m.table (m.dropObjects t ptrs).2.table := by
  induction ptrs generalizing m with
  | nil => exact .refl h o
  | cons p rest ih =>
    unfold dropObjects
    dsimp only
    split
    · exact .refl h o
    · rename_i object _
      let found := m.withHost (Host.objectAt p m.host).2
      let dropped := (found.discardRange (some t) object).2.note
        (.cleanedUp t object (found.discardRange (some t) object).1)
      have hdropped : Enrols o m.table dropped.table :=
        (sheds_discardRange (some t) object found).table.enrols h o
      exact hdropped.trans (ih hdropped.owners)

end

section

variable {m : Machine Scripted} {loc : Location} {value : UInt64} {order : Order} {c : Counter}

theorem enrols_storeAs (h : m.table.owners.Nodup) (loc : Location) (value : UInt64) (order : Order)
    (direct : Bool) : Enrols m.thread m.table (m.storeAs loc value order direct).2.table := by
  unfold storeAs
  split
  · exact .refl h _
  · split
    · exact .refl h _
    · split
      · exact (sheds_flush h m.thread).table.enrols h _
      · exact enrols_push h ..

theorem enrols_loadAs (h : m.table.owners.Nodup) (o : ThreadId) (loc : Location) (direct : Bool) :
    Enrols o m.table (m.loadAs loc direct).2.table := by
  cases hcheck : loc.check with
  | error f =>
    rw [loadAs_unchecked hcheck]
    exact .refl h o
  | ok u =>
    cases direct with
    | true =>
      rw [loadAs_bypassed ((Location.check_eq_ok_iff loc).mp hcheck)]
      exact .refl h o
    | false =>
      rw [loadAs_plain hcheck]
      dsimp only
      rw [table_forward, resolved_eq]
      exact (sheds_resolve (m := m.count fun s => { s with loads := s.loads + 1 }) h m.thread loc
        false).table.enrols h o

theorem enrols_swapAs (h : m.table.owners.Nodup) (loc : Location) (expected value observed : UInt64)
    (order : Order) (direct : Bool) :
    Enrols m.thread m.table (m.swapAs loc expected value observed order direct).2.table := by
  unfold swapAs
  dsimp only
  generalize hchoice : (if (!direct && order.isWeakCas) = true then Host.choose 2 m.host
    else (0, m.host)) = choice
  split
  · rw [table_noteOperation]
    exact .refl h _
  · have hthread : (m.withHost choice.2).thread = m.thread := by
      rw [← hchoice]
      split <;> rfl
    have hstored := enrols_storeAs (m := m.withHost choice.2) h loc value (order ||| .atomicOp)
      direct
    rw [hthread] at hstored
    cases hs : (m.withHost choice.2).storeAs loc value (order ||| .atomicOp) direct with
    | mk o m' =>
      rw [hs] at hstored
      cases o with
      | error f => exact hstored
      | ok u =>
        rw [table_noteOperation]
        exact hstored

theorem enrols_cas (h : m.table.owners.Nodup) (loc : Location) (expected value : UInt64)
    (success failure : Order) :
    Enrols m.thread m.table (m.cas loc expected value success failure).2.table := by
  rw [cas, masked_table]
  have hloaded := enrols_loadAs (m := m.held) h m.thread loc m.host.flags.bypassed
  have hthread := (steady_loadAs m.held loc m.host.flags.bypassed).2
  cases hload : m.held.loadAs loc m.host.flags.bypassed with
  | mk o inner =>
    rw [hload] at hloaded hthread
    cases o with
    | error f => exact hloaded
    | ok observed =>
      dsimp only
      split
      · have hswapped := enrols_swapAs hloaded.owners loc expected value observed
          (success ||| m.minOrder) m.host.flags.bypassed
        rw [show inner.thread = m.thread from hthread] at hswapped
        exact hloaded.trans hswapped
      · rw [table_noteOperation]
        exact hloaded

/-- An operation opens a slot for the running thread only. -/
theorem enrols_perform (h : m.table.owners.Nodup) (op : Op) :
    Enrols m.thread m.table (m.perform op).2.table := by
  cases op with
  | store loc value order =>
    let noted := m.noteOperation (.storeIssued m.thread loc value (order ||| m.minOrder))
    have htable : noted.held.table = m.table := table_noteOperation _
    have hhost : noted.host = m.host := host_noteOperation _
    have hthread : noted.held.thread = m.thread := by
      show noted.host.thread = m.host.thread
      rw [hhost]
    have hstored := enrols_storeAs (m := noted.held) (by rwa [htable]) loc value
      (order ||| m.minOrder) noted.host.flags.bypassed
    rwa [htable, hthread] at hstored
  | load loc order =>
    have hloaded := enrols_loadAs (m := m.held) h m.thread loc m.host.flags.bypassed
    show Enrols m.thread m.table (m.load loc order).2.table
    rw [load, masked_table]
    cases hload : m.held.loadAs loc m.host.flags.bypassed with
    | mk o inner =>
      rw [hload] at hloaded
      cases o with
      | error f => exact hloaded
      | ok value =>
        dsimp only
        rw [table_noteOperation]
        exact hloaded
  | fence order =>
    show Enrols m.thread m.table (m.fence order).table
    rw [fence, masked_table]
    let noted := m.held.noteOperation (.fenceIssued m.thread (order ||| m.minOrder))
    have htable : noted.table = m.table := table_noteOperation _
    have howners : noted.table.owners.Nodup := by rwa [htable]
    rw [← htable]
    split
    · rw [htable]
      exact .refl h _
    · dsimp only
      split
      · exact (sheds_flush howners m.thread).table.enrols howners _
      · split
        · exact enrols_pushFence howners ..
        · exact .refl howners _
  | cas loc expected value success failure => exact enrols_cas h ..
  | cleanup ptrs => exact enrols_dropObjects (m := m.held) h ..
  | resize ptr size =>
    show Enrols m.thread m.table (m.resize ptr size).2.table
    unfold resize
    split
    · exact .refl h _
    · rw [masked_table]
      dsimp only
      split
      · exact .refl h _
      · split
        · exact .refl h _
        · exact (sheds_discardRange (m := m.held) ..).table.enrols h _
  | debugFence => exact (sheds_flush (m := m.held) h m.thread).table.enrols h m.thread
  | dump =>
    exact (sheds_flush (m := (m.note (.dumped m.report)).held) h m.thread).table.enrols h m.thread

end

end Machine

end StoreBuffer
