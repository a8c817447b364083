import Xv6.IdeModel

/-!
# What holds at the points of the disk driver

The proof outline of ide.c. Unless somebody is about to start the device, the queue is empty and the
device idle, or the device works on the first request, or it has done this request and the handler is
still to come.
-/

namespace Xv6.Ide

open Monitor Function List

variable {ι β α : Type} [DecidableEq ι] [DecidableEq β]

/-! ## The registers -/

section

variable {b : Buf α}

theorem lba_cmd (h : b.blockno < FSSIZE) : b.cmd.lba = b.blockno := by
  have hsmall : b.blockno < 1000 := h
  have h3 : b.blockno &&& 0xff = b.blockno % 256 := Nat.and_two_pow_sub_one_eq_mod b.blockno 8
  have h4 : (b.blockno >>> 8) &&& 0xff = b.blockno / 256 % 256 := by
    rw [Nat.shiftRight_eq_div_pow]
    exact Nat.and_two_pow_sub_one_eq_mod _ 8
  have h5 : (b.blockno >>> 16) &&& 0xff = b.blockno / 65536 % 256 := by
    rw [Nat.shiftRight_eq_div_pow]
    exact Nat.and_two_pow_sub_one_eq_mod _ 8
  have h6 : b.cmd.r6 &&& 0x0f = 0 := by
    have hzero : b.blockno >>> 24 = 0 := by
      rw [Nat.shiftRight_eq_div_pow]
      omega
    simp only [Buf.cmd, hzero, Nat.and_one_is_mod]
    rcases Nat.mod_two_eq_zero_or_one b.dev with hd | hd <;> rw [hd] <;> decide
  simp only [Cmd.lba, h6]
  simp only [Buf.cmd, h3, h4, h5]
  omega

theorem drive_cmd (h : b.blockno < FSSIZE) : b.cmd.drive = decide (b.dev % 2 = 1) := by
  have hsmall : b.blockno < 1000 := h
  have hzero : b.blockno >>> 24 = 0 := by
    rw [Nat.shiftRight_eq_div_pow]
    omega
  simp only [Cmd.drive, Buf.cmd, hzero, Nat.and_one_is_mod]
  rcases Nat.mod_two_eq_zero_or_one b.dev with hd | hd <;> rw [hd] <;> decide

end

/-! ## The invariant -/

structure Waiting (b : Buf α) : Prop where
  busy : b.busy = true
  todo : ¬ (b.valid = true ∧ b.dirty = false)
  blockno : b.blockno < FSSIZE

def Fetched (d : World ι β α) (b : Buf α) : Prop :=
  b.dirty = false → d.reg = d.drives b.cmd.drive b.cmd.lba

def Device (d : World ι β α) : Phase ι → Prop
  | .idle => d.queue = [] ∧ d.cmds = [] ∧ d.irq = 0
  | .busy => ∃ n rest, d.queue = n :: rest ∧ d.cmds = [(d.bufs n).cmd] ∧ d.irq = 0
  | .raised => ∃ n rest, d.queue = n :: rest ∧ d.cmds = [] ∧ d.irq = 1 ∧ Fetched d (d.bufs n)
  | .taken _ => ∃ n rest, d.queue = n :: rest ∧ d.cmds = [] ∧ d.irq = 0 ∧ Fetched d (d.bufs n)
  | .starting _ => d.cmds = [] ∧ d.irq = 0

/-- The write of the first request, if the device has done it. -/
def World.ahead (d : World ι β α) (disk : ℕ → α) : ℕ → α :=
  match d.phase, d.queue with
  | .raised, n :: _ | .taken _, n :: _ =>
    if (d.bufs n).dirty = true ∧ (d.bufs n).dev % 2 = 1 then
      Function.update disk (d.bufs n).blockno (d.bufs n).data
    else disk
  | _, _ => disk

/-- The memory disk that has served the same requests in the same order. -/
def Agrees (size : ℕ) (m₀ : Mem β α) (d : World ι β α) : Prop :=
  (∀ n b, Event.serve n b ∈ d.trace → b.dev = 1) →
    ∃ m, d.trace.foldlM (Mem.run size) m₀ = some m ∧ m.bufs = d.bufs ∧
      d.drives true = d.ahead m.disk

structure Inv (size : ℕ) (m₀ : Mem β α) (d : World ι β α) : Prop where
  order : d.arrivals = d.served ++ d.queue
  nodup : d.queue.Nodup
  queued : ∀ n ∈ d.queue, d.users n ≠ none ∧ Waiting (d.bufs n)
  device : Device d d.phase
  agrees : Agrees size m₀ d
  serves : d.trace.filterMap Event.request = d.served

def Quiet (d : World ι β α) : Prop := ∀ i, d.phase ≠ .starting i

structure Served (d : World ι β α) (n : β) (t : ℕ) : Prop where
  notMem : n ∉ d.queue
  lt : t < d.served.length
  arrival : d.arrivals[t]? = some n
  valid : (d.bufs n).valid = true
  clean : (d.bufs n).dirty = false

def Ticket (d : World ι β α) (n : β) (t : ℕ) : Prop :=
  d.arrivals[t]? = some n ∧ n ∈ d.queue ∧ d.served.length ≤ t ∨ Served d n t

def Asserts (i : ι) (l : Loc β α) (d : World ι β α) : Prop :=
  match l with
  | .out | .claim _ | .poll | .panic _ => True
  | .own n | .fill n _ | .drop n => d.users n = some i ∧ n ∉ d.queue
  | .call n => (d.users n = some i ∧ n ∉ d.queue) ∧ (d.bufs n).blockno < FSSIZE
  | .acquire n => (d.users n = some i ∧ n ∉ d.queue) ∧ Waiting (d.bufs n)
  | .append n => ((d.users n = some i ∧ n ∉ d.queue) ∧ Waiting (d.bufs n)) ∧ Quiet d
  | .start n t => (d.users n = some i ∧ Ticket d n t) ∧ d.phase = .starting i ∧ d.queue.head? = some n
  | .test n t => (d.users n = some i ∧ Ticket d n t) ∧ Quiet d
  | .doze n t => (d.users n = some i ∧ Ticket d n t) ∧ Quiet d ∧ n ∈ d.queue
  | .release n t => (d.users n = some i ∧ Served d n t) ∧ Quiet d
  | .returned n t => d.users n = some i ∧ Served d n t
  | .intrAcquire | .intrTake => d.phase = .taken i
  | .intrWakeup _ | .intrNext => d.phase = .starting i
  | .intrRelease => Quiet d
  | .panicLocked _ => False

def held : Loc β α → Bool
  | .append _ | .start _ _ | .test _ _ | .doze _ _ | .release _ _ => true
  | .intrTake | .intrWakeup _ | .intrNext | .intrRelease | .panicLocked _ => true
  | _ => false

def Waits (i : ι) (l : Loc β α) (d : World ι β α) : Prop :=
  ∃ n t, l = .test n t ∧ d.users n = some i ∧ Ticket d n t

def Owes (l : Loc β α) (n : β) : Prop :=
  match l with
  | .intrWakeup n' => n = n'
  | _ => False

variable {size : ℕ} {m₀ : Mem β α} {d d' : World ι β α} {i j : ι} {l l' : Loc β α} {n : β} {t : ℕ}

/-! ## Interference -/

structure Rely (i : ι) (d d' : World ι β α) : Prop where
  users : ∀ n, d.users n = some i → d'.users n = some i
  owner : ∀ n, d.users n = some i → n ∉ d.queue → n ∉ d'.queue ∧ d'.bufs n = d.bufs n
  served : ∀ n t, d.users n = some i → Served d n t → Served d' n t
  ticket : ∀ n t, d.users n = some i → Ticket d n t → Ticket d' n t
  taken : d.phase = .taken i → d'.phase = .taken i

structure Outside (d d' : World ι β α) : Prop where
  queue : d'.queue = d.queue
  quiet : Quiet d → Quiet d'
  starting : ∀ i, d.phase = .starting i → d'.phase = .starting i

variable {b : Buf α} {u : β → Option ι} {rest : List β} {c : Cmd α}

theorem Asserts.rely (h : Asserts i l d) (hr : Rely i d d') (hl : held l = true → Outside d d') :
    Asserts i l d' := by
  have howner : ∀ n, d.users n = some i ∧ n ∉ d.queue → d'.users n = some i ∧ n ∉ d'.queue :=
    fun n hn => ⟨hr.users n hn.1, (hr.owner n hn.1 hn.2).1⟩
  cases l with
  | out | claim n | poll | panic msg => trivial
  | own n | fill n b | drop n => exact howner n h
  | call n =>
    refine ⟨howner n h.1, ?_⟩
    rw [(hr.owner n h.1.1 h.1.2).2]
    exact h.2
  | acquire n =>
    refine ⟨howner n h.1, ?_⟩
    rw [(hr.owner n h.1.1 h.1.2).2]
    exact h.2
  | append n =>
    refine ⟨⟨howner n h.1.1, ?_⟩, (hl rfl).quiet h.2⟩
    rw [(hr.owner n h.1.1.1 h.1.1.2).2]
    exact h.1.2
  | start n t =>
    refine ⟨⟨hr.users n h.1.1, hr.ticket n t h.1.1 h.1.2⟩, (hl rfl).starting i h.2.1, ?_⟩
    rw [(hl rfl).queue]
    exact h.2.2
  | test n t => exact ⟨⟨hr.users n h.1.1, hr.ticket n t h.1.1 h.1.2⟩, (hl rfl).quiet h.2⟩
  | doze n t =>
    refine ⟨⟨hr.users n h.1.1, hr.ticket n t h.1.1 h.1.2⟩, (hl rfl).quiet h.2.1, ?_⟩
    rw [(hl rfl).queue]
    exact h.2.2
  | release n t => exact ⟨⟨hr.users n h.1.1, hr.served n t h.1.1 h.1.2⟩, (hl rfl).quiet h.2⟩
  | returned n t => exact ⟨hr.users n h.1, hr.served n t h.1 h.2⟩
  | intrAcquire | intrTake => exact hr.taken h
  | intrWakeup n | intrNext => exact (hl rfl).starting i h
  | intrRelease => exact (hl rfl).quiet h
  | panicLocked msg => exact h

theorem Waits.rely (h : Waits i l d) (hr : Rely i d d') : Waits i l d' := by
  obtain ⟨n, t, rfl, hu, ht⟩ := h
  exact ⟨n, t, rfl, hr.users n hu, hr.ticket n t hu ht⟩

theorem Rely.of_queue (husers : ∀ n, d.users n = some i → d'.users n = some i ∧ d'.bufs n = d.bufs n)
    (hqueue : d'.queue = d.queue) (harrivals : d'.arrivals = d.arrivals) (hserved : d'.served = d.served)
    (htaken : d.phase = .taken i → d'.phase = .taken i) : Rely i d d' := by
  have hsv : ∀ n t, d.users n = some i → Served d n t → Served d' n t := by
    intro n t hu hs
    refine ⟨?_, ?_, ?_, ?_, ?_⟩
    · rw [hqueue]
      exact hs.notMem
    · rw [hserved]
      exact hs.lt
    · rw [harrivals]
      exact hs.arrival
    · rw [(husers n hu).2]
      exact hs.valid
    · rw [(husers n hu).2]
      exact hs.clean
  refine ⟨fun n hu => (husers n hu).1, fun n hu hn => ⟨by rwa [hqueue], (husers n hu).2⟩, hsv,
    fun n t hu ht => ?_, htaken⟩
  rcases ht with ht | hs
  · refine .inl ?_
    rw [harrivals, hqueue, hserved]
    exact ht
  · exact .inr (hsv n t hu hs)

structure StepOk (size : ℕ) (m₀ : Mem β α) (i : ι) (l : Loc β α) (d : World ι β α)
    (r : World ι β α × Loc β α) : Prop where
  inv : Inv size m₀ r.1
  run : Asserts i r.2 r.1
  locked : held r.2 = held l
  owes : ∀ n, Owes l n → n ∈ r.1.queue ∨ Owes r.2 n
  reason : ∀ n ∈ d.queue, n ∈ r.1.queue ∨ Owes r.2 n
  rely : ∀ j, j ≠ i → Rely j d r.1
  outside : held l = false → Outside d r.1

theorem Rely.refl (i : ι) (d : World ι β α) : Rely i d d :=
  .of_queue (fun _ hu => ⟨hu, rfl⟩) rfl rfl rfl id

theorem Outside.refl (d : World ι β α) : Outside d d := ⟨rfl, id, fun _ => id⟩

theorem StepOk.same (h : Inv size m₀ d) (hrun : Asserts i l' d) (hheld : held l' = held l)
    (howes : ∀ n, ¬ Owes l n) : StepOk size m₀ i l d (d, l') where
  inv := h
  run := hrun
  locked := hheld
  owes n ho := absurd ho (howes n)
  reason n hn := .inl hn
  rely j _ := .refl j d
  outside _ := .refl d

/-! ## Owners -/

theorem Device.congr {p : Phase ι} (h : Device d p) (hqueue : d'.queue = d.queue)
    (hcmds : d'.cmds = d.cmds) (hirq : d'.irq = d.irq) (hreg : d'.reg = d.reg)
    (hdrives : d'.drives = d.drives) (hbufs : ∀ n ∈ d.queue, d'.bufs n = d.bufs n) : Device d' p := by
  cases p with
  | idle => exact ⟨hqueue.trans h.1, hcmds.trans h.2.1, hirq.trans h.2.2⟩
  | starting w => exact ⟨hcmds.trans h.1, hirq.trans h.2⟩
  | busy =>
    obtain ⟨n, rest, hq, hc, hi⟩ := h
    refine ⟨n, rest, hqueue.trans hq, ?_, hirq.trans hi⟩
    rw [hcmds, hbufs n (by rw [hq]; exact mem_cons_self), hc]
  | raised | taken w =>
    obtain ⟨n, rest, hq, hc, hi, hf⟩ := h
    refine ⟨n, rest, hqueue.trans hq, hcmds.trans hc, hirq.trans hi, ?_⟩
    rw [Fetched, hreg, hdrives, hbufs n (by rw [hq]; exact mem_cons_self)]
    exact hf

theorem ahead_congr (hphase : d'.phase = d.phase) (hqueue : d'.queue = d.queue)
    (hbufs : ∀ n ∈ d.queue, d'.bufs n = d.bufs n) (disk : ℕ → α) : d'.ahead disk = d.ahead disk := by
  simp only [World.ahead, hphase, hqueue]
  cases hq : d.queue with
  | nil => cases d.phase <;> rfl
  | cons n rest =>
    have hn := hbufs n (by rw [hq]; exact mem_cons_self)
    cases d.phase <;> simp only [hn]

theorem Inv.change (h : Inv size m₀ d) (hn : n ∉ d.queue)
    (hu : ∀ n', n' ≠ n → u n' = d.users n') : Inv size m₀ { d.change n b with users := u } := by
  have hne : ∀ n' ∈ d.queue, n' ≠ n := by
    rintro n' hn' rfl
    exact hn hn'
  have hsame : ∀ n' ∈ d.queue, { d.change n b with users := u }.bufs n' = d.bufs n' :=
    fun n' hn' => update_of_ne (hne n' hn') ..
  refine ⟨h.order, h.nodup, fun n' hn' => ?_, h.device.congr rfl rfl rfl rfl rfl hsame, fun hdev => ?_, ?_⟩
  · rw [hsame n' hn']
    exact ⟨fun hc => (h.queued n' hn').1 ((hu n' (hne n' hn')).symm.trans hc), (h.queued n' hn').2⟩
  · obtain ⟨m, hm, hmb, hmd⟩ := h.agrees fun n' b' hs => hdev n' b' (mem_append_left _ hs)
    refine ⟨{ m with bufs := update m.bufs n b }, ?_, ?_, ?_⟩
    · change (d.trace ++ [Event.set n b]).foldlM _ _ = _
      rw [foldlM_append, hm]
      rfl
    · exact congrArg (update · n b) hmb
    · exact hmd.trans (Eq.symm (ahead_congr (by rfl) (by rfl) hsame _))
  · exact filterMap_append.trans ((append_nil _).trans h.serves)

theorem StepOk.change (h : Inv size m₀ d) (hl : ∀ n, ¬ Owes l n)
    (hn : n ∉ d.queue) (hmine : ∀ j, j ≠ i → d.users n ≠ some j)
    (hu : ∀ n', n' ≠ n → u n' = d.users n') (hrun : Asserts i l' { d.change n b with users := u })
    (hheld : held l' = held l) : StepOk size m₀ i l d ({ d.change n b with users := u }, l') where
  inv := h.change hn hu
  run := hrun
  locked := hheld
  owes n' ho := absurd ho (hl n')
  reason n' hn' := .inl hn'
  rely j hj := by
    refine .of_queue (fun n' hu' => ?_) rfl rfl rfl id
    have hne : n' ≠ n := by
      rintro rfl
      exact hmine j hj hu'
    exact ⟨(hu n' hne).trans hu', update_of_ne hne ..⟩
  outside _ := ⟨rfl, id, fun _ => id⟩

/-! ## iderw -/

theorem stepOk_claim (h : Inv size m₀ d) (n : β) : StepOk size m₀ i (.claim n) d
    (if d.users n = none then
        ({ d.change n { d.bufs n with busy := true } with
            users := update d.users n (some i) }, .own n)
      else (d, .out)) := by
  split
  · rename_i hfree
    have hn : n ∉ d.queue := fun hq => (h.queued n hq).1 hfree
    refine .change h nofun hn (fun j _ hu => ?_) (fun n' hne => update_of_ne hne ..)
      ⟨update_self .., hn⟩ rfl
    rw [hfree] at hu
    cases hu
  · exact .same h trivial rfl nofun

theorem not_mine {o : Option ι} (ho : o = some i) : ∀ j, j ≠ i → o ≠ some j := by
  rintro j hj rfl
  exact hj (Option.some.inj ho)

section

variable (h : Inv size m₀ d)
include h

theorem stepOk_fill (n : β) (b : Buf α) (hi : d.users n = some i ∧ n ∉ d.queue) :
    StepOk size m₀ i (.fill n b) d (d.change n { b with busy := true }, .own n) :=
  .change (u := d.users) h nofun hi.2 (not_mine hi.1) (fun _ _ => rfl) hi rfl

theorem stepOk_drop (n : β) (hi : d.users n = some i ∧ n ∉ d.queue) :
    StepOk size m₀ i (.drop n) d
      ({ d.change n { d.bufs n with busy := false } with
          users := update d.users n none }, .out) :=
  .change h nofun hi.2 (not_mine hi.1) (fun _ hne => update_of_ne hne ..) trivial rfl

theorem stepOk_call (n : β) (hi : Asserts i (.call n) d) :
    StepOk size m₀ i (.call n) d (d, rwTest n d) := by
  rw [rwTest]
  split
  · exact .same h trivial rfl nofun
  rename_i hbusy
  split
  · exact .same h trivial rfl nofun
  rename_i htodo
  split
  · exact .same h trivial rfl nofun
  · exact .same h ⟨hi.1, ⟨by simpa using hbusy, htodo, hi.2⟩⟩ rfl nofun

theorem Inv.idle_of_empty (hquiet : Quiet d) (hq : d.queue = []) : d.phase = .idle := by
  have hd := h.device
  cases hp : d.phase with
  | idle => rfl
  | starting w => exact absurd hp (hquiet w)
  | busy =>
    rw [hp] at hd
    obtain ⟨n, rest, hq', -⟩ := hd
    rw [hq] at hq'
    cases hq'
  | raised | taken w =>
    rw [hp] at hd
    obtain ⟨n, rest, hq', -⟩ := hd
    rw [hq] at hq'
    cases hq'

end

theorem getElem?_append_of_some {l : List β} (h : l[t]? = some n) (l' : List β) :
    (l ++ l')[t]? = some n := by
  obtain ⟨ht, -⟩ := List.getElem?_eq_some_iff.mp h
  rw [List.getElem?_append_left ht, h]

theorem Rely.arrive (hj : j ≠ i) (hi : d.users n = some i) (husers : d'.users = d.users)
    (hbufs : d'.bufs = d.bufs) (hqueue : d'.queue = d.queue ++ [n])
    (harrivals : d'.arrivals = d.arrivals ++ [n]) (hserved : d'.served = d.served)
    (htaken : d.phase = .taken j → d'.phase = .taken j) : Rely j d d' := by
  have hnot : ∀ n', d.users n' = some j → n' ∉ d.queue → n' ∉ d'.queue := by
    intro n' hu hn'
    rw [hqueue, mem_append, mem_singleton]
    rintro (hq | rfl)
    · exact hn' hq
    · exact not_mine hi j hj hu
  have hsv : ∀ n' t, d.users n' = some j → Served d n' t → Served d' n' t := by
    intro n' t hu hs
    refine ⟨hnot n' hu hs.notMem, hserved ▸ hs.lt, ?_, hbufs ▸ hs.valid, hbufs ▸ hs.clean⟩
    rw [harrivals]
    exact getElem?_append_of_some hs.arrival _
  refine ⟨fun n' hu => by rwa [husers], fun n' hu hn' => ⟨hnot n' hu hn', by rw [hbufs]⟩, hsv,
    fun n' t hu ht => ?_, htaken⟩
  rcases ht with ⟨ha, hq, hle⟩ | hs
  · refine .inl ⟨?_, ?_, hserved ▸ hle⟩
    · rw [harrivals]
      exact getElem?_append_of_some ha _
    · rw [hqueue]
      exact mem_append_left _ hq
  · exact .inr (hsv n' t hu hs)

section

variable (h : Inv size m₀ d)
include h

theorem Inv.served_le : d.served.length ≤ d.arrivals.length := by
  rw [h.order, length_append]
  omega

theorem stepOk_append (n : β) (hi : Asserts i (.append n) d) :
    StepOk size m₀ i (.append n) d (rwAppend i n d) := by
  obtain ⟨⟨⟨hu, hn⟩, hw⟩, hquiet⟩ := hi
  have hqueued : ∀ n' ∈ d.queue ++ [n], d.users n' ≠ none ∧ Waiting (d.bufs n') := by
    intro n' hn'
    rcases mem_append.mp hn' with hq | hq
    · exact h.queued n' hq
    · rw [mem_singleton.mp hq, hu]
      exact ⟨nofun, hw⟩
  have hnodup : (d.queue ++ [n]).Nodup :=
    List.Nodup.append h.nodup (nodup_singleton n) (by simpa using hn)
  have horder : d.arrivals ++ [n] = d.served ++ (d.queue ++ [n]) := by
    rw [h.order, append_assoc]
  have harrival : (d.arrivals ++ [n])[d.arrivals.length]? = some n := by simp
  have hmem : n ∈ d.queue ++ [n] := mem_append_right _ (mem_singleton_self n)
  cases hq : d.queue with
  | nil =>
    -- the device is idle and has to be started
    have hidle := h.idle_of_empty hquiet hq
    have hdev := h.device
    rw [hidle] at hdev
    have hhead : (d.queue ++ [n]).head? = some n := by rw [hq]; rfl
    simp only [rwAppend, if_pos hhead]
    refine ⟨⟨horder, hnodup, hqueued, hdev.2, fun hserve => ?_, h.serves⟩,
      ⟨⟨hu, .inl ⟨harrival, hmem, h.served_le⟩⟩, rfl, hhead⟩, rfl, nofun,
      fun n' hn' => .inl (mem_append_left _ hn'), fun j hj => ?_, nofun⟩
    · obtain ⟨m, hm, hmb, hmd⟩ := h.agrees hserve
      refine ⟨m, hm, hmb, ?_⟩
      simp only [World.ahead, hidle] at hmd
      simp only [World.ahead, hmd]
    · refine .arrive hj hu rfl rfl rfl rfl rfl fun ht => ?_
      rw [hidle] at ht
      cases ht
  | cons n₁ rest =>
    have hhead : (d.queue ++ [n]).head? ≠ some n := by
      rw [hq]
      rintro ⟨⟩
      exact hn (by rw [hq]; exact mem_cons_self)
    simp only [rwAppend, if_neg hhead]
    refine ⟨⟨horder, hnodup, hqueued, ?_, fun hserve => ?_, h.serves⟩,
      ⟨⟨hu, .inl ⟨harrival, hmem, h.served_le⟩⟩, hquiet⟩, rfl, nofun,
      fun n' hn' => .inl (mem_append_left _ hn'), fun j hj => .arrive hj hu rfl rfl rfl rfl rfl id, nofun⟩
    · have hd := h.device
      cases hp : d.phase with
      | idle =>
        rw [hp] at hd
        rw [hd.1] at hq
        cases hq
      | starting w => exact absurd hp (hquiet w)
      | busy =>
        rw [hp] at hd
        obtain ⟨n₂, rest₂, hq₂, hc, hirq⟩ := hd
        exact ⟨n₂, rest₂ ++ [n], by simp only [hq₂, cons_append], hc, hirq⟩
      | raised | taken w =>
        rw [hp] at hd
        obtain ⟨n₂, rest₂, hq₂, hc, hirq, hf⟩ := hd
        exact ⟨n₂, rest₂ ++ [n], by simp only [hq₂, cons_append], hc, hirq, hf⟩
    · obtain ⟨m, hm, hmb, hmd⟩ := h.agrees hserve
      refine ⟨m, hm, hmb, ?_⟩
      rw [hmd]
      simp only [World.ahead, hq, cons_append]
      cases d.phase <;> rfl

theorem stepOk_idestart {next : Loc β α} (hstart : d.phase = .starting i)
    (hhead : d.queue.head? = some n) (hl : held l = true) (howes : ∀ n, ¬ Owes l n)
    (hnext : held next = true)
    (hrun : ∀ d' : World ι β α, Quiet d' → d'.users = d.users → d'.bufs = d.bufs → d'.queue = d.queue →
      d'.arrivals = d.arrivals → d'.served = d.served → Asserts i next d') :
    StepOk size m₀ i l d (idestart n next d) := by
  obtain ⟨rest, hq⟩ : ∃ rest, d.queue = n :: rest := by
    cases hq : d.queue with
    | nil =>
      rw [hq] at hhead
      cases hhead
    | cons n₁ rest =>
      rw [hq] at hhead
      cases hhead
      exact ⟨rest, rfl⟩
  have hw := (h.queued n (by rw [hq]; exact mem_cons_self)).2
  have hdev := h.device
  rw [hstart] at hdev
  have hother : ∀ j, j ≠ i → d.phase ≠ .taken j := by
    intro j _ ht
    rw [hstart] at ht
    cases ht
  rw [idestart, if_neg (Nat.not_le.mpr hw.blockno)]
  refine ⟨⟨h.order, h.nodup, h.queued, ⟨n, rest, hq, ?_, hdev.2⟩, fun hserve => ?_, h.serves⟩,
    hrun _ nofun rfl rfl rfl rfl rfl, hnext.trans hl.symm, fun n' ho => absurd ho (howes n'),
    fun n' hn' => .inl hn',
    fun j hj => .of_queue (fun _ hu => ⟨hu, rfl⟩) rfl rfl rfl (fun ht => absurd ht (hother j hj)),
    fun hf => ?_⟩
  · simp only [hdev.1, nil_append]
  · obtain ⟨m, hm, hmb, hmd⟩ := h.agrees hserve
    refine ⟨m, hm, hmb, ?_⟩
    simp only [World.ahead, hstart] at hmd
    simp only [World.ahead, hmd]
  · rw [hl] at hf
    cases hf

theorem stepOk_start (n : β) (t : ℕ) (hi : Asserts i (.start n t) d) :
    StepOk size m₀ i (.start n t) d (idestart n (.test n t) d) := by
  obtain ⟨⟨hu, ht⟩, hstart, hhead⟩ := hi
  refine stepOk_idestart h hstart hhead rfl nofun rfl ?_
  intro d' hquiet husers hbufs hqueue harrivals hserved
  refine ⟨⟨by rw [husers, hu], ?_⟩, hquiet⟩
  rcases ht with ht | hs
  · refine .inl ?_
    rw [harrivals, hqueue, hserved]
    exact ht
  · exact .inr ⟨hqueue ▸ hs.notMem, hserved ▸ hs.lt, harrivals ▸ hs.arrival, hbufs ▸ hs.valid,
      hbufs ▸ hs.clean⟩

theorem stepOk_test (n : β) (t : ℕ) (hi : Asserts i (.test n t) d) :
    StepOk size m₀ i (.test n t) d (d, rwLoop n t d) := by
  obtain ⟨⟨hu, ht⟩, hquiet⟩ := hi
  rw [rwLoop]
  split
  · rename_i hmore
    have hq : n ∈ d.queue := by
      rcases ht with ht | hs
      · exact ht.2.1
      · exact absurd ⟨hs.valid, hs.clean⟩ hmore
    exact .same h ⟨⟨hu, ht⟩, hquiet, hq⟩ rfl nofun
  · rename_i hdone
    have hs : Served d n t := by
      rcases ht with ht | hs
      · exact absurd (Classical.not_not.mp hdone) (h.queued n ht.2.1).2.todo
      · exact hs
    exact .same h ⟨⟨hu, hs⟩, hquiet⟩ rfl nofun

/-! ## ideintr -/

theorem stepOk_poll : StepOk size m₀ i .poll d
    (if d.irq = 0 then (d, .out) else ({ d with irq := d.irq - 1, phase := .taken i }, .intrAcquire)) := by
  split
  · exact .same h trivial rfl nofun
  rename_i hirq
  have hd := h.device
  cases hp : d.phase with
  | idle =>
    rw [hp] at hd
    exact absurd hd.2.2 hirq
  | starting w =>
    rw [hp] at hd
    exact absurd hd.2 hirq
  | busy =>
    rw [hp] at hd
    obtain ⟨n, rest, -, -, hzero⟩ := hd
    exact absurd hzero hirq
  | taken w =>
    rw [hp] at hd
    obtain ⟨n, rest, -, -, hzero, -⟩ := hd
    exact absurd hzero hirq
  | raised =>
    rw [hp] at hd
    obtain ⟨n, rest, hq, hc, hone, hf⟩ := hd
    refine ⟨⟨h.order, h.nodup, h.queued, ⟨n, rest, hq, hc, ?_, hf⟩, fun hserve => ?_, h.serves⟩, rfl, rfl, nofun,
      fun n' hn' => .inl hn', fun j _ => .of_queue (fun _ hu => ⟨hu, rfl⟩) rfl rfl rfl (fun ht => ?_),
      fun _ => ⟨rfl, fun _ => nofun, fun w hw => ?_⟩⟩
    · simp only [hone]
    · obtain ⟨m, hm, hmb, hmd⟩ := h.agrees hserve
      refine ⟨m, hm, hmb, ?_⟩
      rw [hmd]
      simp only [World.ahead, hp, hq]
    · rw [hp] at ht
      cases ht
    · rw [hp] at hw
      cases hw

end

def Buf.done (b : Buf α) (reg : α) : Buf α :=
  { b with data := if b.dirty then b.data else reg, valid := true, dirty := false }

theorem Inv.turn (h : Inv size m₀ d) (hq : d.queue = n :: rest) {n' : β}
    (ha : d.arrivals[t]? = some n') (hle : d.served.length ≤ t) :
    t = d.served.length ∧ n' = n ∨ d.served.length < t ∧ n' ∈ rest := by
  rw [h.order, hq, List.getElem?_append_right hle] at ha
  cases hk : t - d.served.length with
  | zero =>
    rw [hk] at ha
    cases ha
    exact .inl ⟨by omega, rfl⟩
  | succ k =>
    rw [hk, List.getElem?_cons_succ] at ha
    exact .inr ⟨by omega, mem_of_getElem? ha⟩

theorem Rely.serve (h : Inv size m₀ d) (hq : d.queue = n :: rest)
    (husers : d'.users = d.users) (hbufs : d'.bufs = update d.bufs n ((d.bufs n).done d.reg))
    (hqueue : d'.queue = rest) (harrivals : d'.arrivals = d.arrivals)
    (hserved : d'.served = d.served ++ [n]) (htaken : d.phase ≠ .taken j) : Rely j d d' := by
  have hnodup := h.nodup
  rw [hq, nodup_cons] at hnodup
  have hlen : d'.served.length = d.served.length + 1 := by
    rw [hserved, length_append, length_singleton]
  have hbuf : ∀ n', n' ≠ n → d'.bufs n' = d.bufs n' := by
    intro n' hne
    rw [hbufs, update_of_ne hne]
  have hout : ∀ n', n' ∉ d.queue → n' ≠ n ∧ n' ∉ d'.queue := by
    intro n' hn'
    rw [hq, mem_cons, not_or] at hn'
    exact ⟨hn'.1, hqueue ▸ hn'.2⟩
  have hsv : ∀ n' t, Served d n' t → Served d' n' t := by
    intro n' t hs
    obtain ⟨hne, hn'⟩ := hout n' hs.notMem
    refine ⟨hn', ?_, harrivals ▸ hs.arrival, ?_, ?_⟩
    · rw [hlen]
      exact Nat.lt_succ_of_lt hs.lt
    · rw [hbuf n' hne]
      exact hs.valid
    · rw [hbuf n' hne]
      exact hs.clean
  refine ⟨fun n' hu => by rwa [husers], fun n' _ hn' => ?_, fun n' t _ hs => hsv n' t hs,
    fun n' t _ ht => ?_, fun ht => absurd ht htaken⟩
  · obtain ⟨hne, hn'⟩ := hout n' hn'
    exact ⟨hn', hbuf n' hne⟩
  · rcases ht with ⟨ha, hmem, hle⟩ | hs
    · rcases h.turn hq ha hle with ⟨rfl, rfl⟩ | ⟨hlt, hrest⟩
      · refine .inr ⟨hqueue ▸ hnodup.1, ?_, harrivals ▸ ha, ?_, ?_⟩
        · rw [hlen]
          exact Nat.lt_succ_self _
        · rw [hbufs, update_self]
          rfl
        · rw [hbufs, update_self]
          rfl
      · refine .inl ⟨harrivals ▸ ha, hqueue ▸ hrest, ?_⟩
        rw [hlen]
        exact hlt
    · exact .inr (hsv n' t hs)

def Mem.serve (m : Mem β α) (n : β) : Mem β α where
  bufs := Function.update m.bufs n ((m.bufs n).done (m.disk (m.bufs n).blockno))
  disk := if (m.bufs n).dirty then Function.update m.disk (m.bufs n).blockno (m.bufs n).data else m.disk

section

variable (hsize : FSSIZE ≤ size)
include hsize

theorem iderw_of_waiting {m : Mem β α} (hw : Waiting (m.bufs n))
    (hdev : (m.bufs n).dev = 1) : m.iderw size n = some (m.serve n) := by
  have hblock : ¬ (m.bufs n).blockno ≥ size := Nat.not_le.mpr (hw.blockno.trans_le hsize)
  have hbusy : ¬ (m.bufs n).busy = false := by
    rw [hw.busy]
    nofun
  rw [Mem.iderw, if_neg hbusy, if_neg hw.todo, if_neg (not_not.mpr hdev), if_neg hblock]
  cases hdirty : (m.bufs n).dirty with
  | true => simp only [Mem.serve, Buf.done, hdirty, if_true]
  | false => simp only [Mem.serve, Buf.done, hdirty, Bool.false_eq_true, if_false]

theorem Agrees.serve (h : Inv size m₀ d) (hi : d.phase = .taken i) (hq : d.queue = n :: rest)
    (hbufs : d'.bufs = update d.bufs n ((d.bufs n).done d.reg)) (hdrives : d'.drives = d.drives)
    (hphase : d'.phase = .starting i) (htrace : d'.trace = d.trace ++ [.serve n (d.bufs n)]) :
    Agrees size m₀ d' := by
  intro hserve
  rw [htrace] at hserve ⊢
  obtain ⟨m, hm, hmb, hmd⟩ := h.agrees fun n' b hs => hserve n' b (mem_append_left _ hs)
  have hdev : (d.bufs n).dev = 1 :=
    hserve n (d.bufs n) (mem_append_right _ (mem_singleton_self _))
  have hw := (h.queued n (by rw [hq]; exact mem_cons_self)).2
  have hdisk : d.drives true = (m.serve n).disk := by
    rw [hmd]
    simp only [World.ahead, hi, hq, hdev, Mem.serve, hmb, Nat.one_mod, and_true]
  have hreg : (d.bufs n).done d.reg = (d.bufs n).done (m.disk (d.bufs n).blockno) := by
    cases hdirty : (d.bufs n).dirty with
    | true => simp only [Buf.done, hdirty, if_true]
    | false =>
      -- the handler reads what the device has read from the same disk
      have hd := h.device
      rw [hi] at hd
      obtain ⟨n₁, rest₁, hq₁, -, -, hf⟩ := hd
      rw [hq] at hq₁
      cases hq₁
      rw [hf hdirty, lba_cmd hw.blockno, drive_cmd hw.blockno, hdev]
      simp only [Nat.one_mod, decide_true, hdisk, Mem.serve, hmb, hdirty, Bool.false_eq_true, if_false]
  refine ⟨m.serve n, ?_, ?_, ?_⟩
  · rw [foldlM_append, hm]
    have hrun : Mem.run size m (.serve n (d.bufs n)) = some (m.serve n) :=
      iderw_of_waiting hsize (hmb ▸ hw) (hmb ▸ hdev)
    simp only [Option.bind_eq_bind, Option.bind_some, foldlM_cons, foldlM_nil, hrun]
    rfl
  · rw [hbufs, hreg]
    simp only [Mem.serve, hmb]
  · rw [hdrives, hdisk]
    simp only [World.ahead, hphase]

theorem stepOk_intrTake (h : Inv size m₀ d) (hi : d.phase = .taken i) :
    StepOk size m₀ i .intrTake d (intrTake i d) := by
  have hd := h.device
  rw [hi] at hd
  obtain ⟨n, rest, hq, hc, hirq, -⟩ := hd
  have hnodup := h.nodup
  rw [hq, nodup_cons] at hnodup
  simp only [intrTake, hq]
  refine ⟨⟨?_, hnodup.2, fun n' hn' => ?_, ⟨hc, hirq⟩, .serve hsize h hi hq rfl rfl rfl rfl, ?_⟩,
    rfl, rfl, nofun, fun n' hn' => ?_, fun j hj => .serve h hq rfl rfl rfl rfl rfl (fun ht => ?_), nofun⟩
  · have horder := h.order
    rw [hq] at horder
    simp only [append_assoc, singleton_append]
    exact horder
  · have hne : n' ≠ n := by
      rintro rfl
      exact hnodup.1 hn'
    simp only [World.setBuf, update_of_ne hne]
    exact h.queued n' (by rw [hq]; exact mem_cons_of_mem _ hn')
  · simp only [filterMap_append, h.serves]
    rfl
  · rw [hq] at hn'
    rcases mem_cons.mp hn' with rfl | hn'
    · exact .inr rfl
    · exact .inl hn'
  · rw [hi] at ht
    exact hj (Phase.taken.inj ht).symm

end

section

variable (h : Inv size m₀ d)
include h

theorem stepOk_intrNext (hi : d.phase = .starting i) :
    StepOk size m₀ i .intrNext d (intrNext d) := by
  rw [intrNext]
  split
  · rename_i hq
    have hdev := h.device
    rw [hi] at hdev
    refine ⟨⟨h.order, h.nodup, h.queued, ⟨hq, hdev.1, hdev.2⟩, fun hserve => ?_, h.serves⟩, nofun, rfl, nofun,
      fun n' hn' => .inl hn', fun j _ => .of_queue (fun _ hu => ⟨hu, rfl⟩) rfl rfl rfl (fun ht => ?_), nofun⟩
    · obtain ⟨m, hm, hmb, hmd⟩ := h.agrees hserve
      refine ⟨m, hm, hmb, ?_⟩
      rw [hmd]
      simp only [World.ahead, hi]
    · rw [hi] at ht
      cases ht
  · rename_i n rest hq
    exact stepOk_idestart h hi (by rw [hq]; rfl) rfl nofun rfl fun _ hquiet _ _ _ _ _ => hquiet

/-! ## The device -/

theorem Inv.cmds_cons {rest : List (Cmd α)} (hc : d.cmds = c :: rest) :
    d.phase = .busy ∧ rest = [] ∧ d.irq = 0 ∧ ∃ n rest, d.queue = n :: rest ∧ c = (d.bufs n).cmd := by
  have hd := h.device
  cases hp : d.phase with
  | idle =>
    rw [hp] at hd
    rw [hd.2.1] at hc
    cases hc
  | starting w =>
    rw [hp] at hd
    rw [hd.1] at hc
    cases hc
  | raised | taken w =>
    rw [hp] at hd
    obtain ⟨n, rest, -, hc', -⟩ := hd
    rw [hc'] at hc
    cases hc
  | busy =>
    rw [hp] at hd
    obtain ⟨n, rest, hq, hc', hirq⟩ := hd
    rw [hc'] at hc
    cases hc
    exact ⟨rfl, rfl, hirq, n, rest, hq, rfl⟩

theorem complete_drives (hq : d.queue = n :: rest) (disk : ℕ → α) (hdisk : d.drives true = disk) :
    (d.complete (d.bufs n).cmd []).drives true = (d.complete (d.bufs n).cmd []).ahead disk := by
  have hw := (h.queued n (by rw [hq]; exact mem_cons_self)).2
  simp only [World.ahead, World.complete, hq]
  cases hdirty : (d.bufs n).dirty with
  | false =>
    have hdata : (d.bufs n).cmd.data = none := by simp only [Buf.cmd, hdirty, Bool.false_eq_true, if_false]
    simp only [hdata, Bool.false_eq_true, false_and, if_false, hdisk]
  | true =>
    have hdata : (d.bufs n).cmd.data = some (d.bufs n).data := by simp only [Buf.cmd, hdirty, if_true]
    simp only [hdata, lba_cmd hw.blockno, drive_cmd hw.blockno, true_and]
    by_cases hodd : (d.bufs n).dev % 2 = 1
    · rw [if_pos hodd, decide_eq_true hodd, update_self, hdisk]
    · rw [if_neg hodd, decide_eq_false hodd, update_of_ne (by decide), hdisk]

theorem Inv.complete {rest : List (Cmd α)} (hc : d.cmds = c :: rest) :
    Inv size m₀ (d.complete c rest) := by
  obtain ⟨hp, rfl, hirq, n, queue, hq, rfl⟩ := h.cmds_cons hc
  refine ⟨h.order, h.nodup, h.queued, ⟨n, queue, hq, rfl, ?_, fun hdirty => ?_⟩, fun hserve => ?_, h.serves⟩
  · simp only [World.complete, hirq]
  · have hdirty' : (d.bufs n).dirty = false := hdirty
    have hdata : (d.bufs n).cmd.data = none := by
      simp only [Buf.cmd, hdirty', Bool.false_eq_true, if_false]
    simp only [World.complete, hdata]
  · obtain ⟨m, hm, hmb, hmd⟩ := h.agrees hserve
    refine ⟨m, hm, hmb, complete_drives h hq m.disk ?_⟩
    rw [hmd]
    simp only [World.ahead, hp]

theorem rely_complete {rest : List (Cmd α)} (hc : d.cmds = c :: rest)
    (i : ι) : Rely i d (d.complete c rest) := by
  refine .of_queue (fun _ hu => ⟨hu, rfl⟩) rfl rfl rfl fun ht => ?_
  rw [(h.cmds_cons hc).1] at ht
  cases ht

theorem outside_complete {rest : List (Cmd α)} (hc : d.cmds = c :: rest) :
    Outside d (d.complete c rest) := by
  refine ⟨rfl, fun _ => nofun, fun w hw => ?_⟩
  rw [(h.cmds_cons hc).1] at hw
  cases hw

end

/-! ## The outline -/

theorem stepOk {f : Bool → World ι β α → World ι β α × Loc β α} (hsize : FSSIZE ≤ size) (killed : Bool)
    (hc : machine.code i l = .step f) (h : Inv size m₀ d) (hi : Asserts i l d) :
    StepOk size m₀ i l d (f killed d) := by
  cases l with
  | claim n =>
    cases hc
    exact stepOk_claim h n
  | fill n b =>
    cases hc
    exact stepOk_fill h n b hi
  | drop n =>
    cases hc
    exact stepOk_drop h n hi
  | call n =>
    cases hc
    exact stepOk_call h n hi
  | append n =>
    cases hc
    exact stepOk_append h n hi
  | start n t =>
    cases hc
    exact stepOk_start h n t hi
  | test n t =>
    cases hc
    exact stepOk_test h n t hi
  | poll =>
    cases hc
    exact stepOk_poll h
  | intrTake =>
    cases hc
    exact stepOk_intrTake hsize h hi
  | intrNext =>
    cases hc
    exact stepOk_intrNext h hi
  | _ => cases hc

def outline (hsize : FSSIZE ≤ size) (m₀ : Mem β α) : Outline (machine (ι := ι) (β := β) (α := α)) where
  held := held
  inv := Inv size m₀
  free := Quiet
  run := Asserts
  wait := Waits
  reason n d := n ∈ d.queue
  owes := Owes
  call {i l l' d} hc hmenu _ hl := by
    cases l with
    | out =>
      cases l' with
      | claim n => exact ⟨rfl, trivial, nofun⟩
      | poll => exact ⟨rfl, trivial, nofun⟩
      | _ => cases hmenu
    | own n =>
      cases l' with
      | fill n' b =>
        cases hmenu
        exact ⟨rfl, hl, nofun⟩
      | drop n' =>
        cases hmenu
        exact ⟨rfl, hl, nofun⟩
      | call n' =>
        obtain ⟨rfl, hblock⟩ := hmenu
        exact ⟨rfl, ⟨hl, hblock⟩, nofun⟩
      | _ => cases hmenu
    | returned n t =>
      cases l' with
      | own n' =>
        cases hmenu
        exact ⟨rfl, ⟨hl.1, hl.2.notMem⟩, nofun⟩
      | _ => cases hmenu
    | panic msg => cases hmenu
    | panicLocked msg => cases hmenu
    | _ => cases hc
  env {d d'} he h := by
    obtain ⟨c, rest, hc, rfl⟩ := he
    exact ⟨h.complete hc, (outside_complete h hc).quiet,
      fun i l hl => hl.rely (rely_complete h hc i) fun _ => outside_complete h hc,
      fun i l hl => hl.rely (rely_complete h hc i), fun n hn => hn⟩
  acquire {i l l' d} hc _ hfree hl := by
    cases l with
    | acquire n =>
      cases hc
      exact ⟨rfl, ⟨hl, hfree⟩, nofun⟩
    | intrAcquire =>
      cases hc
      exact ⟨rfl, hl, nofun⟩
    | _ => cases hc
  release {i l l' d} hc _ hl := by
    cases l with
    | release n t =>
      cases hc
      exact ⟨rfl, hl.2, hl.1, nofun⟩
    | intrRelease =>
      cases hc
      exact ⟨rfl, hl, trivial, nofun⟩
    | _ => cases hc
  step k hc h hl := by
    have hok := stepOk hsize k hc h hl
    exact ⟨hok.inv, fun hf => (hok.outside hf).quiet, hok.run, hok.locked, hok.owes, hok.reason⟩
  stable_run {i j l l' f d} k hij hc h hj hexcl hl := by
    have hok := stepOk hsize k hc h hj
    exact hl.rely (hok.rely i hij) fun hheld => hok.outside (Bool.eq_false_iff.mpr (hexcl hheld))
  stable_wait k hij hc h hj hl := hl.rely ((stepOk hsize k hc h hj).rely _ hij)
  sleep {i l l' c d} hc _ hl := by
    cases l with
    | doze n t =>
      cases hc
      exact ⟨rfl, hl.2.1, ⟨_, t, rfl, hl.1.1, hl.1.2⟩, hl.2.2, nofun⟩
    | _ => cases hc
  wakeup {i l l' c d} hc _ hl := by
    cases l with
    | intrWakeup n =>
      cases hc
      exact ⟨rfl, hl, fun n' hne ho => absurd ho hne⟩
    | _ => cases hc
  resume _ hfree hw := by
    obtain ⟨n, t, rfl, hu, ht⟩ := hw
    exact ⟨⟨hu, ht⟩, hfree⟩

end Xv6.Ide
