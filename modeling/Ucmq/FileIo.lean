import Ucmq.StoreRtag

/-!
# Reading and writing all of it

The loops of file.c around read and write, on descriptors that block and on
others. A history of answers of the system is taken turn by turn. Whatever was
answered, what has been moved is a first part of what was to be moved, and a call
that returns a length has moved as much as there is. So one number says what a
call of write_n did to the position log.
-/

namespace Ucmq.FileIo

open StoreState StoreRtag

/-- Answers of read and write. -/
inductive Answer where
  /-- So many bytes at most, zero for none. -/
  | moved (n : ℕ)
  /-- EINTR. -/
  | interrupted
  /-- EAGAIN. -/
  | again
  /-- Any other error. -/
  | failed
  deriving DecidableEq

/-- Answers of poll. -/
inductive Poll where
  | ready
  | timeout
  | other
  deriving DecidableEq

/-- Answers of the system during one turn of a loop. -/
structure Turn where
  /-- Milliseconds that are left. -/
  rest : ℤ
  /-- Answer of wait_fd. -/
  revents : Poll
  /-- Answers of read or write, which is called again after EINTR. -/
  answers : List Answer

variable {α : Type}

/-- What is to be moved, and where it went. -/
structure Transfer (α : Type) where
  todo : List α
  done : List α

/-- State of a loop after a turn. -/
structure Total (α : Type) where
  /-- exit_loop. -/
  exitLoop : Bool
  /-- Bytes moved, -1 for an error. -/
  size : ℤ
  x : Transfer α

/-- One read or write of at most room bytes. -/
def Transfer.move (x : Transfer α) (room n : ℕ) : Transfer α :=
  let bytes := x.todo.take (min n room)
  ⟨x.todo.drop bytes.length, x.done ++ bytes⟩

/-- The answer after those of calls that were interrupted. -/
def retry : List Answer → Option Answer
  | [] => none
  | .interrupted :: as => retry as
  | a :: _ => some a

/-- An error ends the loop. -/
def broken (x : Transfer α) : Total α := ⟨true, -1, x⟩

/-- Bytes were moved; none ends the loop. -/
def counted (size : ℕ) (total : ℤ) (n : ℕ) (x : Transfer α) : Total α :=
  let x' := x.move (size-total.toNat) n
  let moved := x'.done.length-x.done.length
  ⟨decide (moved = 0), total+moved, x'⟩

/-- A turn on a descriptor that blocks: wait, then call until it is not interrupted. -/
def blockTurn (size : ℕ) (timeout : ℤ) (t : Turn) (total : ℤ) (x : Transfer α) : Option (Total α) :=
  if 0 < timeout ∧ t.rest ≤ 0 then some (broken x)
  else if t.revents = .ready then
    match retry t.answers with
    | none => none
    | some (.moved n) => some (counted size total n x)
    | some _ => some (broken x)
  else some (broken x)

/-- A turn on a descriptor that does not block: call, then wait after EAGAIN. -/
def nonblockTurn (size : ℕ) (timeout : ℤ) (t : Turn) (total : ℤ) (x : Transfer α) :
    Option (Total α) :=
  match t.answers.head? with
  | none => none
  | some (.moved n) => some (counted size total n x)
  | some .interrupted => some ⟨false, total, x⟩
  | some .again =>
    if timeout = 0 ∨ (0 < timeout ∧ t.rest ≤ 0) then some (broken x)
    else if t.revents = .ready then some ⟨false, total, x⟩
    else some (broken x)
  | some .failed => some (broken x)

/-- Take turns until the loop ends; none when the history ends first. -/
def turns (turn : Turn → ℤ → Transfer α → Option (Total α)) (size : ℕ) (timeout : ℤ) :
    List Turn → ℤ → Transfer α → Option (ℤ × Transfer α)
  | [], _, _ => none
  | t :: ts, total, x =>
    match turn t total x with
    | none => none
    | some r =>
      if r.exitLoop = false ∧ r.size < size ∧ timeout ≠ 0 then turns turn size timeout ts r.size r.x
      else some (r.size, r.x)

/-- Whether a descriptor blocks. -/
inductive FdBlock where
  | invalid
  | unknown
  | block
  | nonblock

/-- Whether a descriptor does not block, with the answer of fcntl; none is an error. -/
def isNonblock (b : FdBlock) (flags : Option Bool) : Option Bool :=
  match b with
  | .block => some false
  | .nonblock => some true
  | .unknown => flags
  | .invalid => none

/-- One of the two loops. -/
def transferN (b : FdBlock) (flags : Option Bool) (size : ℕ) (timeout : ℤ) (ts : List Turn)
    (x : Transfer α) :
    Option (ℤ × Transfer α) :=
  match isNonblock b flags with
  | none => some (-1, x)
  | some true => turns (nonblockTurn size timeout) size timeout ts 0 x
  | some false => turns (blockTurn size timeout) size timeout ts 0 x

/-- Read into an array of a size. -/
def readN (b : FdBlock) (flags : Option Bool) (size : ℕ) (timeout : ℤ) (ts : List Turn)
    (stream : List α) :
    Option (ℤ × Transfer α) := transferN b flags size timeout ts ⟨stream, []⟩

/-- Write an array. -/
def writeN (b : FdBlock) (flags : Option Bool) (buf : List α) (timeout : ℤ) (ts : List Turn) :
    Option (ℤ × Transfer α) := transferN b flags buf.length timeout ts ⟨buf, []⟩

/-- read answers zero at the end of the file only, and write does not. -/
def Progress (ts : List Turn) : Prop := ∀ t ∈ ts, .moved 0 ∉ t.answers

/-- The first n of the data are moved, and counted. -/
structure Moved (size : ℕ) (data : List α) (n : ℕ) (x : Transfer α) : Prop where
  room : n ≤ size
  length : n ≤ data.length
  todo : x.todo = data.drop n
  done : x.done = data.take n

/-- How a turn leaves the loop: with a part moved, and an error, or with that part
counted and a reason to stop or not. -/
structure TurnOk (size : ℕ) (data : List α) (n : ℕ) (progress : Prop) (r : Total α) : Prop where
  moved : ∃ m, n ≤ m ∧ Moved size data m r.x ∧
    ((r.exitLoop = true ∧ r.size = -1 ∧ m = n) ∨ r.size = m ∧
      (r.exitLoop = true → progress → m = data.length))

variable {size n : ℕ} {timeout : ℤ} {data : List α} {x : Transfer α} {t : Turn}
  {ts : List Turn} {r : Total α}

/-- An answer after interruptions is one of the answers. -/
theorem mem_of_retry {a : Answer} {as : List Answer} (h : retry as = some a) : a ∈ as := by
  induction as with
  | nil => exact absurd h (by simp [retry])
  | cons b as ih =>
    cases b with
    | interrupted => exact List.mem_cons_of_mem _ (ih h)
    | moved | again | failed =>
      rw [← Option.some.inj h]
      exact List.mem_cons_self

/-- A call that fails has counted what it moved. -/
theorem broken_ok (h : Moved size data n x) (progress : Prop) :
    TurnOk size data n progress (broken x) :=
  ⟨n, le_rfl, h, .inl ⟨rfl, rfl, rfl⟩⟩

/-- A call that moves bytes takes the next ones. -/
theorem counted_ok {k : ℕ} {progress : Prop} (h : Moved size data n x) (hlt : n < size)
    (hk : progress → k ≠ 0) :
    TurnOk size data n progress (counted size n k x) := by
  have hroom : size-(n : ℤ).toNat = size-n := by rw [Int.toNat_natCast]
  have hlen : (x.todo.take (min k (size-n))).length = min (min k (size-n)) (data.length-n) := by
    rw [h.todo, List.length_take, List.length_drop]
  obtain ⟨m, hm⟩ : ∃ m, m = min (min k (size-n)) (data.length-n) := ⟨_, rfl⟩
  have hbytes : x.todo.take (min k (size-n)) = (data.drop n).take m := by
    rw [h.todo, hm]
    rcases le_total (min k (size-n)) (data.length-n) with hle | hle
    · rw [min_eq_left hle]
    · rw [min_eq_right hle, List.take_of_length_le (by rw [List.length_drop]; exact hle),
        List.take_of_length_le (by rw [List.length_drop])]
  have hmoved : Moved size data (n+m) (x.move (size-n) k) := by
    have hroom' := h.room
    have hlength := h.length
    refine ⟨by omega, by omega, ?_, ?_⟩
    · simp only [Transfer.move, hlen, ← hm]
      rw [h.todo, List.drop_drop]
    · simp only [Transfer.move, hbytes]
      rw [h.done, List.take_add]
  have hcount : (x.move (size-n) k).done.length-x.done.length = m := by
    rw [hmoved.done, h.done, List.length_take, List.length_take]
    have := h.length
    omega
  refine ⟨n+m, Nat.le_add_right _ _, ?_, .inr ⟨?_, fun hexit hprogress => ?_⟩⟩
  · simpa only [counted, hroom] using hmoved
  · simp only [counted, hroom, hcount]
    push_cast
    rfl
  · simp only [counted, hroom, hcount, decide_eq_true_eq] at hexit
    have := hk hprogress
    have := h.length
    omega

/-- A turn on a descriptor that blocks. -/
theorem blockTurn_ok (h : Moved size data n x) (hlt : n < size)
    (hr : blockTurn size timeout t n x = some r) :
    TurnOk size data n (.moved 0 ∉ t.answers) r := by
  unfold blockTurn at hr
  split_ifs at hr
  · rw [← Option.some.inj hr]
    exact broken_ok h _
  · cases ha : retry t.answers with
    | none => simp [ha] at hr
    | some a =>
      rw [ha] at hr
      cases a with
      | moved k =>
        rw [← Option.some.inj hr]
        refine counted_ok h hlt ?_
        rintro hno rfl
        exact hno (mem_of_retry ha)
      | interrupted | again | failed =>
        rw [← Option.some.inj hr]
        exact broken_ok h _
  · rw [← Option.some.inj hr]
    exact broken_ok h _

/-- A turn on one that does not. -/
theorem nonblockTurn_ok (h : Moved size data n x) (hlt : n < size)
    (hr : nonblockTurn size timeout t n x = some r) :
    TurnOk size data n (.moved 0 ∉ t.answers) r := by
  have hagain : TurnOk size data n (.moved 0 ∉ t.answers) ⟨false, n, x⟩ :=
    ⟨n, le_rfl, h, .inr ⟨rfl, fun hexit => absurd hexit Bool.false_ne_true⟩⟩
  unfold nonblockTurn at hr
  cases ha : t.answers.head? with
  | none => simp [ha] at hr
  | some a =>
    rw [ha] at hr
    cases a with
    | moved k =>
      rw [← Option.some.inj hr]
      refine counted_ok h hlt ?_
      rintro hno rfl
      exact hno (List.mem_of_mem_head? ha)
    | interrupted =>
      rw [← Option.some.inj hr]
      exact hagain
    | again =>
      dsimp only at hr
      split_ifs at hr
      · rw [← Option.some.inj hr]
        exact broken_ok h _
      · rw [← Option.some.inj hr]
        exact hagain
      · rw [← Option.some.inj hr]
        exact broken_ok h _
    | failed =>
      rw [← Option.some.inj hr]
      exact broken_ok h _

/-- How a loop ends: with an error before all room was filled, or with what was moved
as its length, which is all there is when nothing holds it up. -/
def Ends (size : ℕ) (data : List α) (progress : Prop) (ret : ℤ) (x : Transfer α) : Prop :=
  ∃ m, Moved size data m x ∧
    ((ret = -1 ∧ m < size) ∨ (ret = m ∧ (progress → m = min size data.length)))

/-- Turns in a row. -/
theorem turns_ends {turn : Turn → ℤ → Transfer α → Option (Total α)} {ret : ℤ} {x' : Transfer α}
    (hturn : ∀ {t n x r}, Moved size data n x → n < size → turn t n x = some r →
      TurnOk size data n (.moved 0 ∉ t.answers) r)
    (h : Moved size data n x) (hlt : n < size)
    (hrun : turns turn size timeout ts n x = some (ret, x')) :
    Ends size data (Progress ts ∧ timeout ≠ 0) ret x' := by
  induction ts generalizing n x with
  | nil => exact absurd hrun (by simp [turns])
  | cons t ts ih =>
    rw [turns] at hrun
    cases hr : turn t n x with
    | none => simp [hr] at hrun
    | some r =>
      rw [hr] at hrun
      dsimp only at hrun
      obtain ⟨m, hle, hmoved, hcase⟩ := (hturn h hlt hr).moved
      rcases hcase with ⟨hexit, hsize, rfl⟩ | ⟨hsize, hstop⟩
      · rw [if_neg (by simp [hexit]), hsize] at hrun
        obtain ⟨rfl, rfl⟩ := Prod.mk.inj (Option.some.inj hrun)
        exact ⟨m, hmoved, .inl ⟨rfl, hlt⟩⟩
      · rw [hsize] at hrun
        split_ifs at hrun with hmore
        · obtain ⟨m', hmoved', hend⟩ := ih hmoved (by omega) hrun
          refine ⟨m', hmoved',
            hend.imp_right fun he => ⟨he.1, fun hp => he.2 ⟨fun u hu => ?_, hp.2⟩⟩⟩
          exact hp.1 u (List.mem_cons_of_mem _ hu)
        · obtain ⟨rfl, rfl⟩ := Prod.mk.inj (Option.some.inj hrun)
          refine ⟨m, hmoved, .inr ⟨rfl, fun hp => ?_⟩⟩
          have hroom := hmoved.room
          have hlength := hmoved.length
          by_cases hexit : r.exitLoop = true
          · have := hstop hexit (hp.1 t List.mem_cons_self)
            omega
          · have : ¬(m : ℤ) < size := fun hm => hmore ⟨by simpa using hexit, hm, hp.2⟩
            omega

/-- Both loops end so, on either kind of descriptor. -/
theorem transferN_ends {b : FdBlock} {flags : Option Bool} {ret : ℤ} {x' : Transfer α}
    (hpos : 0 < size) (hrun : transferN b flags size timeout ts ⟨data, []⟩ = some (ret, x')) :
    Ends size data (Progress ts ∧ timeout ≠ 0) ret x' := by
  have hstart : Moved size data 0 ⟨data, []⟩ := ⟨Nat.zero_le _, Nat.zero_le _, rfl, rfl⟩
  unfold transferN at hrun
  cases hb : isNonblock b flags with
  | none =>
    rw [hb] at hrun
    obtain ⟨rfl, rfl⟩ := Prod.mk.inj (Option.some.inj hrun)
    exact ⟨0, hstart, .inl ⟨rfl, hpos⟩⟩
  | some nonblock =>
    rw [hb] at hrun
    cases nonblock with
    | true => exact turns_ends nonblockTurn_ok hstart hpos hrun
    | false => exact turns_ends blockTurn_ok hstart hpos hrun

/-- What read_n and write_n leave, whatever the system answers: of the stream or the
array a first part is moved, in order and within the size, and it is counted unless
the call fails. A call that does not fail has moved all that there is. -/
theorem readN_writeN_end {b : FdBlock} {flags : Option Bool} {buf : List α} (hpos : 0 < size)
    (hbuf : buf ≠ []) :
    (∀ ret x', readN b flags size timeout ts data = some (ret, x') →
        Ends size data (Progress ts ∧ timeout ≠ 0) ret x') ∧
      ∀ ret x', writeN b flags buf timeout ts = some (ret, x') →
        Ends buf.length buf (Progress ts ∧ timeout ≠ 0) ret x' :=
  ⟨fun _ _ hrun => transferN_ends hpos hrun,
    fun _ _ hrun => transferN_ends (List.length_pos_iff.mpr hbuf) hrun⟩

/-- Two of three bytes are read after an interruption, and three are written in two
parts. -/
theorem readN_writeN_end_three :
    Ends 2 [7, 8, 9] (Progress [⟨5, .ready, [.interrupted, .moved 6]⟩] ∧ (1 : ℤ) ≠ 0) 2
        ⟨[9], [7, 8]⟩ ∧
      Ends 3 [7, 8, 9] (Progress [⟨5, .ready, [.moved 1]⟩, ⟨4, .ready, [.moved 2]⟩] ∧ (1 : ℤ) ≠ 0) 3
        ⟨[], [7, 8, 9]⟩ :=
  ⟨(@readN_writeN_end ℕ 2 1 [7, 8, 9] [⟨5, .ready, [.interrupted, .moved 6]⟩] .unknown
      (some false) [7] (by decide) (by decide)).1 2 ⟨[9], [7, 8]⟩ rfl,
    (@readN_writeN_end ℕ 2 1 [] [⟨5, .ready, [.moved 1]⟩, ⟨4, .ready, [.moved 2]⟩] .block
      none [7, 8, 9] (by decide) (by decide)).2 3 ⟨[], [7, 8, 9]⟩ rfl⟩

/-- mq_sm_rtag_write_item with the calls that write_n makes. Nothing can be asked of a
closed descriptor. -/
def rtagWriteItemCalls (flags : Option Bool) (ts : List Turn) (s : Store) : Option (Bool × Store) :=
  match s.q.rtagFd.bind s.proc.fds, s.q.rtagFd with
  | some (.rtag i append offset), some fd =>
    (writeN .unknown flags (rtagText (rtagItem s.q)) 1 ts).map fun r =>
      match s.dir.rtag i with
      | none => (decide ((0 : ℤ) < r.1), s)
      | some t =>
        let off := if append then t.length else offset
        (decide ((0 : ℤ) < r.1),
          { s with
            dir := s.dir.setRtag i (some (writeText t off r.2.done))
            proc := { s.proc with
              fds := Function.update s.proc.fds fd
                (some (.rtag i append (off+r.2.done.length))) } })
  | _, _ => some (false, s)

/-- One number stands for the calls: as many characters of the record are in the log,
and the call is said to succeed when the record is there. -/
theorem rtagWriteItemCalls_eq {flags : Option Bool} {s : Store} {out : Bool × Store}
    (hp : Progress ts) (hrun : rtagWriteItemCalls flags ts s = some out) :
    ∃ n, ∀ sys site, sys.rtagWrite site = n → mqSmRtagWriteItem sys site s = out := by
  have hnil : rtagText (rtagItem s.q) ≠ [] := by simp [rtagText]
  unfold rtagWriteItemCalls at hrun
  unfold mqSmRtagWriteItem
  cases hfd : s.q.rtagFd with
  | none =>
    rw [hfd] at hrun
    exact ⟨0, fun sys site _ => Option.some.inj hrun⟩
  | some fd =>
    rw [hfd, Option.bind_some] at hrun
    rw [Option.bind_some]
    cases href : s.proc.fds fd with
    | none =>
      rw [href] at hrun
      exact ⟨0, fun sys site _ => Option.some.inj hrun⟩
    | some ref =>
      rw [href] at hrun
      cases ref with
      | db i => exact ⟨0, fun sys site _ => Option.some.inj hrun⟩
      | rtag i append offset =>
        obtain ⟨⟨ret, x⟩, hcalls, hout⟩ := Option.map_eq_some_iff.mp hrun
        obtain ⟨n, hmoved, hend⟩ := transferN_ends (List.length_pos_iff.mpr hnil) hcalls
        have hret : decide ((rtagText (rtagItem s.q)).length ≤ n) = decide (0 < ret) := by
          rw [decide_eq_decide]
          rcases hend with ⟨rfl, hlt⟩ | ⟨rfl, hfull⟩
          · omega
          · have hn := hfull ⟨hp, by decide⟩
            have hpos := List.length_pos_iff.mpr hnil
            omega
        refine ⟨n, fun sys site hn => ?_⟩
        have hret' :
            decide ((rtagText (rtagItem s.q)).length ≤ sys.rtagWrite site) = decide (0 < ret) := by
          rw [hn]
          exact hret
        have hdone : (rtagText (rtagItem s.q)).take (sys.rtagWrite site) = x.done := by
          rw [hn, hmoved.done]
        rw [← hout]
        dsimp only
        cases s.dir.rtag i with
        | none => rw [hret']
        | some t => rw [hret', hdone]

/-- A queue with an empty log. -/
def logStore : Store :=
  ⟨Dir.empty.setRtag 1 (some []), Proc.empty.openFd (.rtag 1 true 0),
    { MqQueue.zero with rtagFd := some 0 }⟩

/-- Twenty characters are written before the time is over. -/
theorem rtagWriteItemCalls_eq_timeout :
    ∃ out, rtagWriteItemCalls (some false) [⟨1, .ready, [.moved 20]⟩,
      ⟨0, .ready, []⟩] logStore = some out ∧
      out.1 = false ∧ (out.2.dir.rtag 1).map List.length = some 20 ∧
        ∃ n, ∀ sys site, sys.rtagWrite site = n → mqSmRtagWriteItem sys site logStore = out := by
  have hp : Progress [⟨1, .ready, [.moved 20]⟩, ⟨0, .ready, []⟩] := by
    intro t ht
    rcases List.mem_cons.mp ht with rfl | ht
    · decide
    · rw [List.mem_singleton.mp ht]
      decide
  exact ⟨_, rfl, by decide, by decide, @rtagWriteItemCalls_eq _ (some false) logStore _ hp rfl⟩

end Ucmq.FileIo
