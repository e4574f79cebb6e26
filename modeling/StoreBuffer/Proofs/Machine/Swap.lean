import StoreBuffer.Proofs.Machine.Lines
import StoreBuffer.Proofs.Reference.Kept

/-! # Compare-and-swap across threads

A compare-and-swap is a load and then a store that may stay in its thread's buffer, so two threads may
both swap the same old value. They cannot if nothing is buffered, or if each thread has emptied its
buffer before the next thread's turn. -/

namespace StoreBuffer

namespace Issue

/-- A compare-and-swap that replaces `v` at the location by another value. -/
def bids (l : Location) (v : UInt64) (i : Issue) : Bool :=
  match i.op with
  | .cas k e w _ _ => decide (k = l) && !i.flags.bypassed &&
      decide (Width.truncate l.width e = Width.truncate l.width v) &&
      decide (Width.truncate l.width w ≠ Width.truncate l.width v)
  | _ => false

/-- A compare-and-swap whose store goes past the buffer. -/
def swapsStrongly (least : Order) (i : Issue) : Bool :=
  match i.op with
  | .cas _ _ _ a _ => (a ||| least).isSeqCst
  | _ => false

/-- An operation that empties the buffer of its thread and cannot fault. -/
def settles (least : Order) (i : Issue) : Bool :=
  match i.op with
  | .store k _ r => !i.flags.bypassed && (r ||| least).isSeqCst && decide k.Valid
  | .fence r => !i.flags.bypassed && (r ||| least).isSeqCst
  | .debugFence | .dump => true
  | _ => false

theorem mem_locations_of_bids {l : Location} {v : UInt64} {i : Issue} (h : i.bids l v = true) :
    l ∈ i.op.locations := by
  obtain ⟨t, flags, heap, op⟩ := i
  cases op with
  | cas k e w a f =>
    simp only [bids, Bool.and_eq_true, decide_eq_true_eq] at h
    obtain ⟨⟨⟨rfl, -⟩, -⟩, -⟩ := h
    exact List.mem_singleton_self k
  | _ => simp [bids] at h

theorem not_settles_of_bids {l : Location} {v : UInt64} {i : Issue} (h : i.bids l v = true)
    (least : Order) : i.settles least = false := by
  obtain ⟨t, flags, heap, op⟩ := i
  cases op with
  | cas => rfl
  | _ => simp [bids] at h

end Issue

/-- A compare-and-swap that has happened. -/
def swapped : Outcome → Bool
  | .ok (.swap _ true) => true
  | _ => false

/-- Nobody but `t` bids before `t` has emptied its buffer. -/
def yieldsTo (least : Order) (l : Location) (v : UInt64) (t : ThreadId) : List Issue → Bool
  | [] => true
  | i :: rest =>
    decide (i.thread = t) && i.settles least ||
      (decide (i.thread = t) || !i.bids l v) && yieldsTo least l v t rest

/-- Every bidder swaps past its buffer, or empties it before another thread bids. -/
def takesTurns (least : Order) (l : Location) (v : UInt64) : List Issue → Bool
  | [] => true
  | i :: rest =>
    (!i.bids l v || i.swapsStrongly least || yieldsTo least l v i.thread rest) &&
      takesTurns least l v rest

namespace Tso

variable {l : Location} {o : Option ThreadId} {v x : UInt64} {s s' : Tso} {least : Order}
  {i : Issue} {r : Outcome}

/-- Who bids for another value than the one kept does not swap. -/
theorem Kept.bid (h : Kept l o x s) (hl : l.Fits) (hbid : i.bids l v = true)
    (ho : o = none ∨ o = some i.thread) (hr : Reaction least i s r s') :
    (swapped r = true → x = Width.truncate l.width v) ∧ (swapped r = false → Kept l o x s') := by
  obtain ⟨t, flags, heap, op⟩ := i
  cases op with
  | cas k e w a f =>
    simp only [Issue.bids, Bool.and_eq_true, decide_eq_true_eq, Bool.not_eq_true'] at hbid
    obtain ⟨⟨⟨rfl, hflags⟩, he⟩, -⟩ := hbid
    have hread : s.load t flags.bypassed k = x := by
      rw [load, hflags]
      exact h.read_seen hl ho
    cases r with
    | error f =>
      cases hr
      exact ⟨by simp [swapped], fun _ => h⟩
    | ok answer =>
      cases hr with
      | swapped hagree =>
        rw [hread, he] at hagree
        exact ⟨fun _ => hagree, by simp [StoreBuffer.swapped]⟩
      | different => exact ⟨by simp [StoreBuffer.swapped], fun _ => h⟩
      | spurious => exact ⟨by simp [StoreBuffer.swapped], fun _ => h⟩
  | _ => simp [Issue.bids] at hbid

/-- Who swaps a value without owner becomes the owner of another one, unless the swap is strong. -/
theorem Kept.swap (h : Kept l none x s) (hl : l.Fits) (hv : Width.Valid l.width)
    (hbid : i.bids l v = true) (hr : Reaction least i s r s') (hs : swapped r = true) :
    ∃ y, y ≠ Width.truncate l.width v ∧ Kept l (some i.thread) y s' ∧
      (i.swapsStrongly least = true → Kept l none y s') := by
  obtain ⟨t, flags, heap, op⟩ := i
  cases op with
  | cas k e w a f =>
    simp only [Issue.bids, Bool.and_eq_true, decide_eq_true_eq, Bool.not_eq_true'] at hbid
    obtain ⟨⟨⟨rfl, hflags⟩, he⟩, hw⟩ := hbid
    have hread (j : Image) : (j.write (k.holding w)).read k = Width.truncate k.width w :=
      Image.read_write_holding hl hv w j
    cases r with
    | error f => simp [swapped] at hs
    | ok answer =>
      cases hr with
      | swapped hagree =>
        refine ⟨Width.truncate k.width w, hw, ?_⟩
        simp only [hflags, Issue.swapsStrongly]
        unfold Tso.store
        rw [Order.isSeqCst_union_atomicOp]
        cases hseq : (a ||| least).isSeqCst with
        | true =>
          have hsettled := h.drains hl (drains_settle s t)
          have hstrong : Kept k none (Width.truncate k.width w)
              ((s.settle t).assign (k.holding w)) := ⟨hread _, hsettled.apart, by simp⟩
          exact ⟨hstrong.take hl t, fun _ => hstrong⟩
        | false =>
          refine ⟨⟨?_, ?_, ?_⟩, by simp⟩
          · show (s.memory.overlay ((s.enqueue t (k.holding w)).queue t)).read k = _
            have hqueue : (s.enqueue t (k.holding w)).queue t = s.queue t ++ [k.holding w] :=
              Function.update_self ..
            rw [hqueue, Image.overlay_append]
            exact hread _
          · intro u hu y hy
            rcases mem_queue_enqueue hy with hy | ⟨rfl, -⟩
            · exact h.apart u (by simp) y hy
            · exact absurd rfl hu
          · intro u _ y hy
            rcases mem_queue_enqueue hy with hy | ⟨-, rfl⟩
            · exact .inl (h.apart u (by simp) y hy)
            · exact .inr rfl
      | different => simp [StoreBuffer.swapped] at hs
      | spurious => simp [StoreBuffer.swapped] at hs
  | _ => simp [Issue.bids] at hbid

/-- An owner that settles leaves its value in memory. -/
theorem Kept.settles (h : Kept l (some i.thread) x s) (hl : l.Fits)
    (hsettles : i.settles least = true) (hspares : i.spares l = true)
    (hfits : ∀ k ∈ i.op.locations, k.Fits) {a : Answer} (hr : Reaction least i s (.ok a) s') :
    Kept l none x s' := by
  obtain ⟨t, flags, heap, op⟩ := i
  have hsettled : Kept l none x (s.settle t) :=
    (h.drains hl (drains_settle s t)).release (Function.update_self ..)
  cases hr with
  | @store k v r =>
    simp only [Issue.settles, Bool.and_eq_true, Bool.not_eq_true'] at hsettles
    have hno : k.region.overlaps l.region = false := by simpa [Issue.spares] using hspares
    rw [hsettles.1.1, Tso.store, hsettles.1.2]
    exact hsettled.assign hl ⟨hfits k (List.mem_singleton_self k), hno⟩
  | fence =>
    simp only [Issue.settles, Bool.and_eq_true, Bool.not_eq_true'] at hsettles
    rw [hsettles.1, hsettles.2]
    exact hsettled
  | debugFence => exact hsettled
  | dump => exact hsettled
  | _ => simp [Issue.settles] at hsettles

end Tso

namespace Machine

variable {m : Machine Scripted}

/-! ## Without capacity -/

/-- After a push the stores fit. -/
theorem storesOf_pushLine (h : m.Sound) {t : ThreadId} {l : Line}
    (hl : ∀ w, l.pendingWrite? = some w → m.host.Accepts w) :
    (m.pushLine t l).storesOf t ≤ m.capacity := by
  have happended := sound_appended h hl (t := t)
  have hfits := storesOf_evictExcess happended t
  have hcapacity : (m.appended t l).capacity = m.capacity :=
    congrArg Config.capacity (config_appended t l)
  rw [hcapacity] at hfits
  have hprune := Table.linesOf_prune (reaches_evictExcess happended t).sound.owners t
  rw [pushLine_eq]
  show ((evictExcess t (m.appended t l)).table.prune.linesOf t).countP (·.isStore) ≤ m.capacity
  rw [hprune]
  exact hfits

/-- Without capacity no store stays buffered. -/
theorem pending_storeAs (h : m.Sound) (hcapacity : m.capacity = 0) {l : Location}
    (hc : m.host.Covers l) {v : UInt64} {r : Order}
    (hok : (m.storeAs l v r false).1 = .ok ()) :
    (m.storeAs l v r false).2.table.pending m.host.thread = [] := by
  unfold storeAs at hok ⊢
  cases hcheck : l.check with
  | error f => simp [hcheck] at hok
  | ok u =>
    have hv := ((Location.check_eq_ok_iff l).mp hcheck).2
    simp only [hcheck, Bool.false_eq_true, if_false] at hok ⊢
    cases hseq : r.isSeqCst with
    | true =>
      show (m.flush m.host.thread).table.pending m.host.thread = []
      rw [pending_flush h.owners, if_pos rfl]
    | false =>
      simp only [hseq, Bool.false_eq_true, if_false] at hok ⊢
      unfold push at hok ⊢
      cases hn : m.numbered (.store l v r) with
      | error f => simp [hn] at hok
      | ok line =>
        have hfits := storesOf_pushLine h (t := m.host.thread) (l := line) fun w hw => by
          rw [pendingWrite?_numbered_store hv hn] at hw
          cases hw
          exact Scripted.accepts_holding hv hc v
        have hlength := length_pending_le (m.pushLine m.host.thread line) m.host.thread
        show (m.pushLine m.host.thread line).table.pending m.host.thread = []
        exact List.length_eq_zero_iff.mp (by omega)

theorem pending_swapAs (h : m.Sound) (hcapacity : m.capacity = 0) {l : Location}
    (hc : m.host.Covers l) {expected value observed y : UInt64} {order : Order}
    (hok : (m.swapAs l expected value observed order false).1 = .ok (y, true)) :
    (m.swapAs l expected value observed order false).2.table.pending m.host.thread = [] := by
  obtain ⟨m₁, e, hr, -, -, ⟨heq, -⟩ | ⟨f, -, heq⟩ | ⟨hstore, heq⟩⟩ :=
    swapAs_cases h l expected value observed order false
  · rw [heq] at hok
    cases hok
  · rw [heq] at hok
    contradiction
  · have hzero : m₁.capacity = 0 := (congrArg Config.capacity hr.config).trans hcapacity
    have hpending := pending_storeAs hr.sound hzero (hr.covers hc) hstore
    rw [hr.thread] at hpending
    rw [heq]
    unfold noteOperation
    split <;> exact hpending

theorem pending_cas (h : m.Sound) (hcapacity : m.capacity = 0) {l : Location}
    (hc : m.host.Covers l) (hbuffered : m.host.flags.bypassed = false) {e v y : UInt64}
    {a f : Order} (hok : (m.cas l e v a f).1 = .ok (y, true)) :
    (m.cas l e v a f).2.table.pending m.host.thread = [] := by
  rw [cas, masked_fst, hbuffered] at hok
  rw [cas, masked_table, hbuffered]
  cases hload : m.held.loadAs l false with
  | mk r m' =>
    rw [hload] at hok
    cases r with
    | error g => contradiction
    | ok observed =>
      have hr := (reaches_loadAs h.held hc (congrArg Prod.fst hload)).1
      rw [hload] at hr
      dsimp only at hok hr ⊢
      split at hok
      · rename_i hagree
        have hzero : m'.capacity = 0 := (congrArg Config.capacity hr.config).trans hcapacity
        have hpending := pending_swapAs hr.sound hzero (hr.covers hc) hok
        rw [hr.thread] at hpending
        rw [if_pos hagree]
        exact hpending
      · cases hok

theorem valid_of_swapped {i : Issue} (hs : swapped (m.issue i).1 = true) :
    ∀ k ∈ i.op.locations, k.Valid := by
  cases hout : (m.issue i).1 with
  | error f => simp [hout, swapped] at hs
  | ok a => exact valid_of_perform hout

/-- Without capacity a bidder that has swapped has nothing pending. -/
theorem pending_bid (h : m.Sound) (hcapacity : m.capacity = 0) {l : Location} {v : UInt64}
    {i : Issue} (hin : ∀ k ∈ i.op.locations, k.Valid → m.host.Covers k) (hbid : i.bids l v = true)
    (hs : swapped (m.issue i).1 = true) : (m.issue i).2.tso.queue i.thread = [] := by
  have hvalid := valid_of_swapped hs
  obtain ⟨t, flags, heap, op⟩ := i
  cases op with
  | cas k e w a f =>
    simp only [Issue.bids, Bool.and_eq_true, decide_eq_true_eq, Bool.not_eq_true'] at hbid
    let m₁ := m.withHost (m.host.prepare ⟨t, flags, heap, .cas k e w a f⟩)
    have hprepared : m₁.Sound := h.congr rfl rfl
    have hok : ∃ y, (m₁.cas k e w a f).1 = .ok (y, true) := by
      have hout : swapped ((m₁.cas k e w a f).1.map fun r => .swap r.1 r.2) = true := hs
      cases hr : (m₁.cas k e w a f).1 with
      | error g => simp [hr, Except.map, swapped] at hout
      | ok r =>
        obtain ⟨y, b⟩ := r
        cases b with
        | true => exact ⟨y, rfl⟩
        | false => simp [hr, Except.map, swapped] at hout
    obtain ⟨y, hok⟩ := hok
    have hc := hin k (List.mem_singleton_self k) (hvalid k (List.mem_singleton_self k))
    exact pending_cas hprepared hcapacity hc hbid.1.1.2 hok
  | _ => simp [Issue.bids] at hbid

/-! ## Bids in turn -/

theorem isOk_of_settles {i : Issue} (hs : i.settles m.minOrder = true) :
    ∃ a, (m.issue i).1 = .ok a := by
  obtain ⟨t, flags, heap, op⟩ := i
  cases op with
  | store k w r =>
    simp only [Issue.settles, Bool.and_eq_true, Bool.not_eq_true', decide_eq_true_eq] at hs
    obtain ⟨⟨hbuffered, hseq⟩, hv⟩ := hs
    have hcheck : k.check = .ok () := (Location.check_eq_ok_iff k).mpr hv
    have hstore : ((m.withHost (m.host.prepare ⟨t, flags, heap, .store k w r⟩)).store k w r).1 =
        .ok () := by
      rw [store, masked_fst, host_noteOperation]
      show (storeAs k w (r ||| m.minOrder) flags.bypassed _).1 = .ok ()
      rw [hbuffered, storeAs, hcheck]
      simp [hseq]
    exact ⟨.done, by simp [issue, perform, hstore, Except.map]⟩
  | fence r => exact ⟨_, rfl⟩
  | debugFence => exact ⟨_, rfl⟩
  | dump => exact ⟨_, rfl⟩
  | _ => simp [Issue.settles] at hs

theorem fits_of_issue (h : m.Sound) {i : Issue}
    (hin : ∀ k ∈ i.op.locations, k.Valid → m.host.Covers k) (a : Answer)
    (hok : (m.issue i).1 = .ok a) : ∀ k ∈ i.op.locations, k.Fits := fun k hk =>
  Scripted.location_fits h.fits (hin k hk (valid_of_perform hok k hk))

/-- An issue meets the location as it was kept, and what it leaves is kept. -/
theorem exists_reaction (h : m.Sound) {l : Location} (hl : l.Fits) {x : UInt64}
    {o : Option ThreadId} (hkept : m.tso.Kept l o x) {i : Issue}
    (hin : ∀ k ∈ i.op.locations, k.Valid → m.host.Covers k) : ∃ s s', s.Kept l o x ∧
      Tso.Reaction m.minOrder i s (m.issue i).1 s' ∧
        ∀ {o' y}, s'.Kept l o' y → (m.issue i).2.tso.Kept l o' y := by
  obtain ⟨s, s', hbefore, hreaction, hafter⟩ := (moves_reaction h hin).steps
  exact ⟨s, s', hkept.drains hl hbefore, hreaction, fun hkept' => hkept'.drains hl hafter⟩

/-- Once the location is kept at another value, nobody swaps any more. -/
theorem no_swap_of_kept (h : m.Sound) {l : Location} (hl : l.Fits) {v x : UInt64}
    (hx : x ≠ Width.truncate l.width v) {o : Option ThreadId} (hkept : m.tso.Kept l o x)
    {is : List Issue} (hin : ∀ i ∈ is, ∀ k ∈ i.op.locations, k.Valid → m.host.Covers k)
    (hrivals : ∀ i ∈ is, i.bids l v = true ∨ i.spares l = true)
    (hyields : ∀ t, o = some t → yieldsTo m.minOrder l v t is = true) :
    (m.history is).countP (fun e => e.1.bids l v && swapped e.2.1) = 0 := by
  induction is generalizing m o with
  | nil => rfl
  | cons i rest ih =>
    have hfirst := hin i (List.mem_cons_self ..)
    obtain ⟨hsound, hconfig, hcovers⟩ := issue_next h hfirst
    have hcov := fun j hj l hl hv => (hcovers l).mpr (hin j (List.mem_cons_of_mem i hj) l hl hv)
    have hleast : (m.issue i).2.minOrder = m.minOrder := congrArg Config.minOrder hconfig
    obtain ⟨s, s', hkept, hreaction, hafter⟩ := exists_reaction h hl hkept hfirst
    have hfits := fits_of_issue h hfirst
    have hrest := fun j hj => hrivals j (List.mem_cons_of_mem i hj)
    -- whatever the issue does, it is enough that the location is kept for an owner to whom the
    -- remaining issues yield
    have hnext {o' : Option ThreadId} (hlost : (i.bids l v && swapped (m.issue i).1) = false)
        (hkept' : s'.Kept l o' x)
        (hyields' : ∀ t, o' = some t → yieldsTo m.minOrder l v t rest = true) :
        (m.history (i :: rest)).countP (fun e => e.1.bids l v && swapped e.2.1) = 0 := by
      rw [history, List.countP_cons_of_neg (by simpa using hlost)]
      exact ih hsound (hafter hkept') hcov hrest (by rwa [hleast])
    cases hbid : i.bids l v with
    | true =>
      have hturn : ∀ t, o = some t → t = i.thread ∧ yieldsTo m.minOrder l v t rest = true := by
        intro t ht
        have hyield := hyields t ht
        simp only [yieldsTo, Issue.not_settles_of_bids hbid, hbid, Bool.and_false, Bool.false_or,
          Bool.not_true, Bool.or_false, Bool.and_eq_true, decide_eq_true_eq] at hyield
        exact ⟨hyield.1.symm, hyield.2⟩
      have howner : o = none ∨ o = some i.thread := by
        cases o with
        | none => exact .inl rfl
        | some t => exact .inr (congrArg some (hturn t rfl).1)
      obtain ⟨hagree, hlost⟩ := hkept.bid hl hbid howner hreaction
      cases hs : swapped (m.issue i).1 with
      | true => exact absurd (hagree hs) hx
      | false => exact hnext (by rw [hs, Bool.and_false]) (hlost hs) fun t ht => (hturn t ht).2
    | false =>
      have hspares : i.spares l = true :=
        (hrivals i (List.mem_cons_self ..)).resolve_left (by simp [hbid])
      have hlost : (i.bids l v && swapped (m.issue i).1) = false := by rw [hbid, Bool.false_and]
      have hkept' := hkept.reaction hl hspares hfits hreaction
      cases o with
      | none => exact hnext hlost hkept' (by simp)
      | some t =>
        have hyield := hyields t rfl
        simp only [yieldsTo, Bool.or_eq_true, Bool.and_eq_true, decide_eq_true_eq] at hyield
        rcases hyield with ⟨rfl, hsettles⟩ | ⟨-, hyield⟩
        · obtain ⟨a, hok⟩ := isOk_of_settles hsettles
          rw [hok] at hreaction
          exact hnext hlost (hkept.settles hl hsettles hspares (hfits a hok) hreaction) (by simp)
        · exact hnext hlost hkept' (by simpa using hyield)

/-- While the location is kept at the old value, a single swap may follow. -/
theorem swaps_le_one_of_kept (h : m.Sound) {l : Location} (hl : l.Fits) {v : UInt64}
    (hkept : m.tso.Kept l none (Width.truncate l.width v)) {is : List Issue}
    (hin : ∀ i ∈ is, ∀ k ∈ i.op.locations, k.Valid → m.host.Covers k)
    (hrivals : ∀ i ∈ is, i.bids l v = true ∨ i.spares l = true)
    (hturns : m.capacity = 0 ∨ takesTurns m.minOrder l v is = true) :
    (m.history is).countP (fun e => e.1.bids l v && swapped e.2.1) ≤ 1 := by
  induction is generalizing m with
  | nil => exact Nat.zero_le 1
  | cons i rest ih =>
    have hfirst := hin i (List.mem_cons_self ..)
    obtain ⟨hsound, hconfig, hcovers⟩ := issue_next h hfirst
    have hcov := fun j hj l hl hv => (hcovers l).mpr (hin j (List.mem_cons_of_mem i hj) l hl hv)
    have hleast : (m.issue i).2.minOrder = m.minOrder := congrArg Config.minOrder hconfig
    obtain ⟨s, s', hkept, hreaction, hafter⟩ := exists_reaction h hl hkept hfirst
    have hfits := fits_of_issue h hfirst
    have hrest := fun j hj => hrivals j (List.mem_cons_of_mem i hj)
    have hcapacity : (m.issue i).2.capacity = m.capacity := congrArg Config.capacity hconfig
    have hturns' : (m.issue i).2.capacity = 0 ∨
        takesTurns (m.issue i).2.minOrder l v rest = true := by
      rw [hcapacity, hleast]
      refine hturns.imp_right fun hturns => ?_
      rw [takesTurns, Bool.and_eq_true] at hturns
      exact hturns.2
    have hlost (hlost : (i.bids l v && swapped (m.issue i).1) = false)
        (hkept' : s'.Kept l none (Width.truncate l.width v)) :
        (m.history (i :: rest)).countP (fun e => e.1.bids l v && swapped e.2.1) ≤ 1 := by
      rw [history, List.countP_cons_of_neg (by simpa using hlost)]
      exact ih hsound (hafter hkept') hcov hrest hturns'
    cases hbid : i.bids l v with
    | false =>
      have hspares : i.spares l = true :=
        (hrivals i (List.mem_cons_self ..)).resolve_left (by simp [hbid])
      exact hlost (by rw [hbid, Bool.false_and]) (hkept.reaction hl hspares hfits hreaction)
    | true =>
      cases hs : swapped (m.issue i).1 with
      | false =>
        exact hlost (by rw [hs, Bool.and_false]) ((hkept.bid hl hbid (.inl rfl) hreaction).2 hs)
      | true =>
        have hv := (valid_of_swapped hs l (Issue.mem_locations_of_bids hbid)).2
        obtain ⟨y, hy, howned, hstrong⟩ := hkept.swap hl hv hbid hreaction hs
        have hnone : ((m.issue i).2.history rest).countP
            (fun e => e.1.bids l v && swapped e.2.1) = 0 := by
          rcases hturns with hzero | hturns
          · have hempty := pending_bid h hzero hfirst hbid hs
            exact no_swap_of_kept hsound hl hy ((hafter howned).release hempty) hcov hrest
              (by simp)
          · simp only [takesTurns, hbid, Bool.not_true, Bool.false_or, Bool.and_eq_true,
              Bool.or_eq_true] at hturns
            rcases hturns.1 with hseq | hyield
            · exact no_swap_of_kept hsound hl hy (hafter (hstrong hseq)) hcov hrest
                (by simp)
            · refine no_swap_of_kept hsound hl hy (hafter howned) hcov hrest ?_
              rw [hleast]
              rintro t ⟨⟩
              exact hyield
        rw [history, List.countP_cons_of_pos (by simp [hbid, hs])]
        exact Nat.succ_le_succ (Nat.le_of_eq hnone)

/-- From a state in which a location holds `v` and no write to it is pending, at most one of the
compare-and-swaps that replace `v` succeeds, if nothing can be buffered or the bidders take turns.
Other operations may come between if they leave the location alone. Any of them may fault: only valid
locations have to lie in memory. -/
theorem one_swap_at_most (h : m.Sound) {l : Location} (hc : m.host.Covers l) {v : UInt64}
    (hvalue : m.host.image.read l = Width.truncate l.width v)
    (hapart : ∀ t, ∀ w ∈ m.table.pending t, w.region.overlaps l.region = false)
    {is : List Issue} (hin : ∀ i ∈ is, ∀ k ∈ i.op.locations, k.Valid → m.host.Covers k)
    (hrivals : ∀ i ∈ is, i.bids l v = true ∨ i.spares l = true)
    (hturns : m.capacity = 0 ∨ takesTurns m.minOrder l v is = true) :
    (m.history is).countP (fun e => e.1.bids l v && swapped e.2.1) ≤ 1 := by
  have hl := Scripted.location_fits h.fits hc
  refine swaps_le_one_of_kept h hl ⟨hvalue, fun t _ w hw => ?_, by simp⟩ hin hrivals hturns
  exact ⟨(h.placed t w hw).2, hapart t w hw⟩

/-- The first thread fences before the second one bids. By the first bid a store next to the location
is pending and a load of the null address has faulted; a store to the null address faults between
the bids. -/
theorem one_swap_at_most_fenced :
    let x : Location := ⟨⟨0x10000000⟩, 32⟩
    let y : Location := ⟨⟨0x10000004⟩, 32⟩
    let null : Location := ⟨.null, 32⟩
    let is : List Issue :=
      [{ thread := ⟨1⟩, op := .cas x 0 1 .monotonic .monotonic },
        { thread := ⟨2⟩, op := .store null 3 .monotonic },
        { thread := ⟨1⟩, op := .fence .seqCst },
        { thread := ⟨2⟩, op := .load x .acquire },
        { thread := ⟨2⟩, op := .cas x 0 2 .monotonic .monotonic }]
    let first : Issue := { thread := ⟨2⟩, op := .store y 7 .monotonic }
    let second : Issue := { thread := ⟨1⟩, op := .load null .monotonic }
    let m₀ := create {} (Scripted.create 16)
    let m := ((m₀.issue first).2.issue second).2
    m.outcomes is = [.ok (.swap 1 true), .error .nullAddress, .ok .done, .ok (.value 1),
      .ok (.swap 1 false)] ∧
      (m.history is).countP (fun e => e.1.bids x 0 && swapped e.2.1) ≤ 1 := by
  intro x y null is first second m₀ m
  have hstart : m₀.Sound := sound_create {} (by unfold Scripted.Fits; decide)
  have hbefore : ∀ e ∈ m₀.history [first, second], e.2.2.Sound := sound_history hstart (by decide)
  have hsound : m.Sound :=
    hbefore (second, _, m) (List.mem_cons_of_mem _ (List.mem_singleton_self _))
  refine ⟨by decide +kernel, one_swap_at_most hsound (by decide +kernel) (by decide +kernel) ?_
    (by decide +kernel) (by decide) (.inr (by decide))⟩
  have hapart : ∀ s ∈ m.table.slots, ∀ w ∈ s.buffer.pending, w.region.overlaps x.region = false := by
    decide +kernel
  intro t w hw
  obtain ⟨s, hs, -, hmem⟩ := (Table.mem_pending_iff hsound.owners).mp hw
  exact hapart s hs w hmem

/-- Two threads swap the same zero: the store of the first one is still in its buffer when the second
one loads. -/
theorem two_swaps_buffered :
    let x : Location := ⟨⟨0x10000000⟩, 32⟩
    let is : List Issue :=
      [{ thread := ⟨1⟩, op := .cas x 0 1 .monotonic .monotonic },
        { thread := ⟨2⟩, op := .cas x 0 2 .monotonic .monotonic }]
    let m := create {} (Scripted.create 16)
    m.Sound ∧ m.host.image.read x = 0 ∧ (∀ t, m.table.linesOf t = []) ∧
      (∀ i ∈ is, i.bids x 0 = true) ∧
      (m.history is).countP (fun e => e.1.bids x 0 && swapped e.2.1) = 2 := by
  refine ⟨sound_create {} (by unfold Scripted.Fits; decide), by decide +kernel, fun t => rfl,
    by decide, by decide +kernel⟩

end Machine

end StoreBuffer
