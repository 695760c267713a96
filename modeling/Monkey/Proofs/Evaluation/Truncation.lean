import Monkey.Proofs.Evaluation.Truthful

/-!
# A full sink cuts off

Evaluation reads nothing of the sink but whether it refuses a line, and only `puts` asks. So two
runs that differ in their sinks alone go side by side until one of these refuses something. If that
sink is full then, it has written what the other one has up to its room, and nothing follows: the
refusal is a fault, and a fault passes through everything around it.
-/

namespace Monkey

namespace Sink

/-- The number of bytes in some pieces. -/
def total : List ByteArray → Nat
  | [] => 0
  | piece :: earlier => total earlier + piece.size

/-- That many bytes are written of all that is offered, and the rest is refused. -/
structure Limits (room : Nat) (judge : List ByteArray → ByteArray → Option Refusal) : Prop where
  /-- What there is room for is taken. -/
  takes : ∀ earlier piece, piece.size ≤ room - total earlier → judge earlier piece = none
  /-- Of anything else as much is written as there is room for. -/
  refuses : ∀ earlier piece, room - total earlier < piece.size →
    ∃ reason, judge earlier piece = some ⟨room - total earlier, reason⟩

/-- A new sink with room for that many bytes. -/
structure Holds (s : Sink) (room : Nat) : Prop where
  /-- Nothing has been written. -/
  written : s.written = .empty
  /-- Nothing has been offered. -/
  offered : s.offered = []
  /-- There is room for so much and no more. -/
  limits : Limits room s.judge

/-- The sink with what another one makes of pieces. -/
def judgedBy (judge : List ByteArray → ByteArray → Option Refusal) (s : Sink) : Sink :=
  { s with judge := judge }

/-- A sink that takes everything and has written all that it was offered. -/
structure Endless (s : Sink) : Prop where
  /-- Everything is taken. -/
  takes : ∀ earlier piece, s.judge earlier piece = none
  /-- Everything has been written. -/
  size : s.written.size = total s.offered

theorem total_eq_foldl (pieces : List ByteArray) (start : Nat) :
    pieces.foldl (fun total piece => total + piece.size) start = start + total pieces := by
  induction pieces generalizing start with
  | nil => rfl
  | cons piece earlier ih =>
    rw [List.foldl_cons, ih, total]
    omega

/-- The sink with a limit is one. -/
theorem holds_limited (room : Nat) (reason : String) : (limited room reason).Holds room where
  written := rfl
  offered := rfl
  limits := {
    takes := fun earlier piece h => by
      simp only [limited, total_eq_foldl, Nat.zero_add, if_pos h]
    refuses := fun earlier piece h => ⟨reason, by
      simp only [limited, total_eq_foldl, Nat.zero_add, if_neg (Nat.not_le.2 h)]⟩ }

theorem endless_unlimited : unlimited.Endless where
  takes _ _ := rfl
  size := rfl

theorem Endless.taken {s : Sink} (h : s.Endless) (bytes : ByteArray) : s.taken bytes = bytes := by
  simp only [Sink.taken, refusal?, h.takes]

theorem Endless.write {s : Sink} (h : s.Endless) (bytes : ByteArray) : (s.write bytes).Endless where
  takes := h.takes
  size := by
    simp only [Sink.write, h.taken, ByteArray.size_append, h.size, total]

/-- Such a sink stays one, and what has been written stays written. -/
theorem Endless.offer {s : Sink} (h : s.Endless) (pieces : List ByteArray) :
    (pieces.foldl Sink.write s).Endless ∧
      ∃ more, (pieces.foldl Sink.write s).written = s.written ++ more := by
  induction pieces generalizing s with
  | nil => exact ⟨h, .empty, by simp⟩
  | cons piece pieces ih =>
    obtain ⟨hendless, more, hmore⟩ := ih (h.write piece)
    refine ⟨hendless, piece ++ more, ?_⟩
    rw [List.foldl_cons, hmore, Sink.write, h.taken, ByteArray.append_assoc]

end Sink

/-- The world with another sink. -/
def World.onto (s : Sink) (w : World) : World := { w with sink := s }

/-- The move with another sink in the world that it leads to. -/
def Move.onto (s : Sink) : Move → Move
  | done v w => .done v (w.onto s)
  | become t w => .become t (w.onto s)
  | await t f => .await t f
  | enter t w => .enter t (w.onto s)

variable {w w₁ w₂ w' w'' : World} {room : Nat}
  {judge : List ByteArray → ByteArray → Option Refusal}

/-! ## Only `puts` writes -/

/-- No other builtin function asks what the sink is, nor writes to it. -/
theorem Builtin.call_onto {b : Builtin} (h : b ≠ .puts) (s : Sink) (arguments : List Value)
    (w : World) : b.call arguments (w.onto s) =
      ((b.call arguments w).1, (b.call arguments w).2.onto s) := by
  cases b with
  | rest =>
    simp only [call]
    split <;> rfl
  | push =>
    simp only [call]
    split <;> rfl
  | puts => exact absurd rfl h
  | _ => rfl

theorem Operation.begin_onto {o : Operation} (h : ∀ arguments, o ≠ .call (.builtin .puts) arguments)
    (s : Sink) (w : World) : o.begin (w.onto s) = (o.begin w).onto s := by
  cases o with
  | branch scope test chosen other =>
    simp only [begin]
    split
    · rfl
    · cases other <;> rfl
  | call callee arguments =>
    cases callee with
    | function identity f =>
      simp only [begin]
      split <;> rfl
    | builtin b =>
      have hb : b ≠ .puts := fun hb => h arguments (by rw [hb])
      simp only [begin, Builtin.call_onto hb, Move.onto]
    | _ => rfl
  | file scope table key value pairs =>
    simp only [begin]
    split <;> rfl
  | _ => rfl

/-- A task that is no call of `puts` goes on in the same way whatever the sink is, and leaves it as
it is. -/
theorem Task.begin_onto {t : Task}
    (h : ∀ arguments, t ≠ .operate (.call (.builtin .puts) arguments)) (s : Sink) (w : World) :
    t.begin (w.onto s) = (t.begin w).onto s := by
  cases t with
  | expression scope e => cases e <;> rfl
  | arguments scope callee done es => cases es <;> rfl
  | elements scope done es => cases es <;> rfl
  | entries scope table pairs => cases pairs <;> rfl
  | statement scope st => cases st <;> rfl
  | block scope last ss => cases ss <;> rfl
  | operate o =>
    exact Operation.begin_onto (fun arguments ho => h arguments (congrArg Task.operate ho)) s w
  | _ => rfl

/-- Where a task is done, or goes on in any way, the sink is what it was. -/
theorem Task.sink_begin {t : Task}
    (h : ∀ arguments, t ≠ .operate (.call (.builtin .puts) arguments)) :
    ((t.begin w).world w).sink = w.sink := by
  have hbegin : t.begin w = (t.begin w).onto w.sink := t.begin_onto h w.sink w
  rw [hbegin]
  cases t.begin w <;> rfl

/-- A task that is not done at once is no call of `puts`. -/
theorem Task.not_puts_of_begin {t : Task} (h : ∀ v w', t.begin w ≠ .done v w') :
    ∀ arguments, t ≠ .operate (.call (.builtin .puts) arguments) := by
  rintro arguments rfl
  exact h _ _ rfl

/-- A step of the machine changes the sink only if it is a call of `puts`. -/
theorem Machine.sink_step {m m' : Machine} (h : m.step = some m')
    (hsink : m'.world.sink ≠ m.world.sink) :
    ∃ arguments, m.control = .task (.operate (.call (.builtin .puts) arguments)) := by
  rcases world_of_step h with hworld | ⟨t, ht, hworld⟩
  · exact absurd (congrArg World.sink hworld) hsink
  · by_contra hother
    refine hsink ?_
    rw [hworld]
    exact Task.sink_begin fun arguments hputs => hother ⟨arguments, by rw [ht, hputs]⟩

/-! ## Side by side -/

/-- What the end of a run with a full sink has to do with the end of the one that was not cut off. -/
inductive CutOff (room : Nat) (judge : List ByteArray → ByteArray → Option Refusal) (w : World)
    (v : Value) (w' : World) : Value → World → Prop where
  /-- There was room for everything. -/
  | within (hroom : w'.sink.written.size ≤ room) :
      CutOff room judge w v w' v (w'.onto (w'.sink.judgedBy judge))
  /-- What was refused is all from where the room ends. -/
  | beyond {w'' : World} {reason : String} (hroom : room < w'.sink.written.size)
      (written : w''.sink.written = w'.sink.written.extract 0 room)
      (refused : (w.onto (w.sink.judgedBy judge)).RefusedSince w'' reason) :
      CutOff room judge w v w' (.error (.output reason)) w''

/-- More that is written does not change what was written first. -/
theorem extract_append_of_le {written : ByteArray} (h : room ≤ written.size) (more : ByteArray) :
    (written ++ more).extract 0 room = written.extract 0 room := by
  rw [ByteArray.extract_append, Nat.sub_eq_zero_of_le h]
  simp

theorem extract_of_size_le {written : ByteArray} (h : written.size ≤ room) :
    written.extract 0 room = written := by
  ext1
  rw [ByteArray.data_extract, Array.extract_eq_self_of_le h]

namespace CutOff

variable {v v' : Value}

/-- A run that is cut off, or is not, may have been preceded by another one. -/
theorem of_suffix (h : CutOff room judge w₁ v w' v' w'')
    (hsuffix : w.sink.offered <:+ w₁.sink.offered) : CutOff room judge w v w' v' w'' := by
  cases h with
  | within hroom => exact .within hroom
  | beyond hroom written refused => exact .beyond hroom written (refused.of_suffix hsuffix)

/-- What a call delivers is cut off as the value of its body is. -/
theorem delivered (h : CutOff room judge w v w' v' w'') :
    CutOff room judge w v.delivered w' v'.delivered w'' := by
  cases h with
  | within hroom => exact .within hroom
  | beyond hroom written refused => exact .beyond hroom written refused

/-- What has been cut off stays so, however the run goes on that is not. -/
theorem extend {u : Value} {reason : String} (hroom : room < w₁.sink.written.size)
    (hwritten : w''.sink.written = w₁.sink.written.extract 0 room)
    (refused : (w.onto (w.sink.judgedBy judge)).RefusedSince w'' reason)
    (hmore : ∃ more, w'.sink.written = w₁.sink.written ++ more) :
    CutOff room judge w u w' (.error (.output reason)) w'' := by
  obtain ⟨more, hmore⟩ := hmore
  refine .beyond ?_ ?_ refused
  · rw [hmore, ByteArray.size_append]
    omega
  · rw [hwritten, hmore, extract_append_of_le (Nat.le_of_lt hroom)]

end CutOff

/-- What the sink makes of pieces stays the same. -/
theorem World.Evolves.judge_eq {may : ScopeId → String → Prop} (h : w.Evolves may w') :
    w'.sink.judge = w.sink.judge := by
  obtain ⟨pieces, hpieces⟩ := h.sink
  rw [hpieces]
  clear hpieces
  induction pieces using List.reverseRecOn with
  | nil => rfl
  | append_singleton pieces piece ih => rwa [List.foldl_append]

/-- The sink of a world that has evolved from one with an endless sink. -/
theorem World.Evolves.endless {may : ScopeId → String → Prop} (h : w.Evolves may w')
    (hs : w.sink.Endless) :
    w'.sink.Endless ∧ ∃ more, w'.sink.written = w.sink.written ++ more := by
  obtain ⟨pieces, hpieces⟩ := h.sink
  rw [hpieces]
  exact hs.offer pieces

/-- Lines are written side by side until one of them does not fit. -/
theorem Builtin.cutOff_writeLines (hjudge : Sink.Limits room judge) (arguments : List Value)
    (hs : w.sink.Endless) (hroom : w.sink.written.size ≤ room) :
    ∃ r w'', writeLines arguments (w.onto (w.sink.judgedBy judge)) = (r, w'') ∧
      CutOff room judge w (.ofResult (writeLines arguments w).1) (writeLines arguments w).2
        (.ofResult r) w'' := by
  induction arguments generalizing w with
  | nil => exact ⟨_, _, rfl, .within hroom⟩
  | cons v vs ih =>
    have hsize := hs.size
    have hline : writeLines (v :: vs) w = writeLines vs (w.write (line v)) := by
      simp only [writeLines, Sink.refusal?, hs.takes]
    have hwritten : (w.write (line v)).sink.written = w.sink.written ++ line v := by
      simp only [World.write, Sink.write, hs.taken]
    have hasked : (w.onto (w.sink.judgedBy judge)).sink.refusal? (line v) =
        judge w.sink.offered (line v) := rfl
    have hafter : ((w.onto (w.sink.judgedBy judge)).write (line v)).sink.written =
        w.sink.written ++ (w.sink.judgedBy judge).taken (line v) := rfl
    rw [hline]
    by_cases hfits : (line v).size ≤ room - Sink.total w.sink.offered
    · have htaken := hjudge.takes _ _ hfits
      have hnext : (w.onto (w.sink.judgedBy judge)).write (line v) =
          (w.write (line v)).onto ((w.write (line v)).sink.judgedBy judge) := by
        simp only [World.write, World.onto, Sink.judgedBy, Sink.write, Sink.taken, Sink.refusal?,
          htaken, hs.takes]
      have hroom' : (w.write (line v)).sink.written.size ≤ room := by
        rw [hwritten, ByteArray.size_append]
        omega
      obtain ⟨r, w'', hr, hcut⟩ := ih (hs.write _) hroom'
      refine ⟨r, w'', ?_, hcut.of_suffix (List.suffix_cons _ _)⟩
      rw [writeLines, hasked, htaken, hnext, hr]
    · obtain ⟨reason, hrefused⟩ := hjudge.refuses _ _ (Nat.not_le.1 hfits)
      have hbeyond : room < (w.write (line v)).sink.written.size := by
        rw [hwritten, ByteArray.size_append]
        omega
      have hmore := (writeLines_evolves (fun _ _ => False) vs (w.write (line v))).endless (hs.write _)
      refine ⟨.error (.output reason), (w.onto (w.sink.judgedBy judge)).write (line v), ?_,
        .extend hbeyond ?_ ?_ hmore.2⟩
      · rw [writeLines, hasked, hrefused]
      · have hpart : (w.sink.judgedBy judge).taken (line v) =
            (line v).extract 0 (room - w.sink.written.size) := by
          rw [hsize]
          simp only [Sink.taken, Sink.refusal?, Sink.judgedBy, hrefused]
        rw [hafter, hpart, hwritten, ByteArray.extract_append, Nat.zero_sub,
          extract_of_size_le hroom]
      · exact ⟨w.sink.offered, line v, _, rfl, List.suffix_refl _, hrefused, rfl⟩

/-- A task that is done at once is done side by side with the same task and another sink. -/
theorem Task.cutOff_begin (hjudge : Sink.Limits room judge) {t : Task} {v : Value}
    (h : t.begin w = .done v w') (hs : w.sink.Endless) (hroom : w.sink.written.size ≤ room) :
    ∃ v' w'', t.begin (w.onto (w.sink.judgedBy judge)) = .done v' w'' ∧
      CutOff room judge w v w' v' w'' := by
  by_cases hputs : ∃ arguments, t = .operate (.call (.builtin .puts) arguments)
  · obtain ⟨arguments, rfl⟩ := hputs
    cases h
    obtain ⟨r, w'', hr, hcut⟩ := Builtin.cutOff_writeLines hjudge arguments hs hroom
    exact ⟨.ofResult r, w'', by rw [begin, Operation.begin, Builtin.call, hr], hcut⟩
  · have hother : ∀ arguments, t ≠ .operate (.call (.builtin .puts) arguments) :=
      fun arguments ht => hputs ⟨arguments, ht⟩
    have hsink : w'.sink = w.sink := by
      have hbegin := Task.sink_begin (w := w) hother
      rwa [h] at hbegin
    refine ⟨v, w'.onto (w.sink.judgedBy judge), ?_, ?_⟩
    · rw [Task.begin_onto hother, h, Move.onto]
    · rw [← hsink]
      exact .within (by rwa [hsink])

/-- Whatever comes of a task, it comes of it with a full sink, unless something is refused: then it
is the fault that says so. -/
theorem Runs.cutOff (hjudge : Sink.Limits room judge) {depth : Nat} {t : Task} {v : Value}
    (h : Runs depth t w v w') (hs : w.sink.Endless) (hroom : w.sink.written.size ≤ room) :
    ∃ v' w'', Runs depth t (w.onto (w.sink.judgedBy judge)) v' w'' ∧
      CutOff room judge w v w' v' w'' := by
  induction h with
  | done move =>
    obtain ⟨v', w'', hbegin, hcut⟩ := Task.cutOff_begin hjudge move hs hroom
    exact ⟨v', w'', .done hbegin, hcut⟩
  | @become depth t t' w w₁ w' v move _ ih =>
    have hother := Task.not_puts_of_begin (fun _ _ => by rw [move]; rintro ⟨⟩)
    have hwithin := t.within_begin w
    rw [move] at hwithin
    obtain ⟨rfl, -⟩ := hwithin
    obtain ⟨v', w'', hrun, hcut⟩ := ih hs hroom
    exact ⟨v', w'', .become (by rw [Task.begin_onto hother, move]; rfl) hrun, hcut⟩
  | @pass depth t t' f w w' v move _ signal ih =>
    have hother := Task.not_puts_of_begin (fun _ _ => by rw [move]; rintro ⟨⟩)
    obtain ⟨v', w'', hrun, hcut⟩ := ih hs hroom
    have hmove : t.begin (w.onto (w.sink.judgedBy judge)) = .await t' f := by
      rw [Task.begin_onto hother, move, Move.onto]
    have hsignal : v'.isSignal = true := by
      cases hcut with
      | within _ => exact signal
      | beyond _ _ _ => rfl
    exact ⟨v', w'', .pass hmove hrun hsignal, hcut⟩
  | @next depth t t' f w w₁ w' u v move first plain rest ih ih' =>
    have hother := Task.not_puts_of_begin (fun _ _ => by rw [move]; rintro ⟨⟩)
    have hmove : t.begin (w.onto (w.sink.judgedBy judge)) = .await t' f := by
      rw [Task.begin_onto hother, move, Move.onto]
    obtain ⟨hs₁, -⟩ := first.evolves.endless hs
    obtain ⟨u', w₂, hfirst, hcut⟩ := ih hs hroom
    cases hcut with
    | within hroom₁ =>
      obtain ⟨v', w'', hrest, hcut'⟩ := ih' hs₁ hroom₁
      exact ⟨v', w'', .next hmove hfirst plain hrest, hcut'.of_suffix first.evolves.offered⟩
    | beyond hbeyond hwritten refused =>
      -- The refusal passes through the frame, and only the other run goes on.
      exact ⟨_, w₂, .pass hmove hfirst rfl,
        .extend hbeyond hwritten refused (rest.evolves.endless hs₁).2⟩
  | @enter depth t t' w w₁ w' v move run ih =>
    have hother := Task.not_puts_of_begin (fun _ _ => by rw [move]; rintro ⟨⟩)
    have hsink : w₁.sink = w.sink := by
      have hbegin := Task.sink_begin (w := w) hother
      rwa [move] at hbegin
    rw [← hsink] at hs hroom
    obtain ⟨v', w'', hrun, hcut⟩ := ih hs hroom
    have hmove : t.begin (w.onto (w.sink.judgedBy judge)) =
        .enter t' (w₁.onto (w₁.sink.judgedBy judge)) := by
      rw [Task.begin_onto hother, move, Move.onto, hsink]
    exact ⟨v'.delivered, w'', .enter hmove hrun,
      hcut.delivered.of_suffix (hsink ▸ List.suffix_refl _)⟩

/-! ## Nothing is refused -/

/-- No operator says that output was refused. -/
theorem Value.unary_ne_output (operator : Token) (right : Value) (reason : String) :
    unary operator right ≠ .error (.output reason) := by
  intro h
  unfold unary at h
  split at h <;> cases h

theorem Value.binary_ne_output (left : Value) (operator : Token) (right : Value) (reason : String) :
    binary left operator right ≠ .error (.output reason) := by
  intro h
  unfold binary arithmetic joining comparison at h
  repeat' split at h
  all_goals cases h

theorem Value.index_ne_output (collection position : Value) (reason : String) :
    index collection position ≠ .error (.output reason) := by
  intro h
  unfold index at h
  repeat' split at h
  all_goals cases h

namespace Builtin

theorem only_ne_output (arguments : List Value) (reason : String) :
    only arguments ≠ .error (.output reason) := by
  intro h
  unfold only at h
  split at h <;> cases h

theorem elements_ne_output (b : Builtin) (v : Value) (reason : String) :
    elements b v ≠ .error (.output reason) := by
  intro h
  unfold elements at h
  split at h <;> cases h

theorem length_ne_output (v : Value) (reason : String) : length v ≠ .error (.output reason) := by
  intro h
  unfold length at h
  split at h <;> cases h

theorem pushed_ne_output (arguments : List Value) (reason : String) :
    pushed arguments ≠ .error (.output reason) := by
  intro h
  unfold pushed at h
  split at h
  · rcases error_of_bind_eq_error h with h | ⟨_, -, h⟩
    · exact elements_ne_output _ _ _ h
    · cases h
  · cases h

/-- With a sink that takes everything, no builtin function says that output was refused. -/
theorem call_ne_output (b : Builtin) (arguments : List Value) (hs : w.sink.Endless)
    (reason : String) : (b.call arguments w).1 ≠ .error (.output reason) := by
  intro h
  cases b with
  | len =>
    rcases error_of_bind_eq_error h with h | ⟨v, -, h⟩
    · exact only_ne_output _ _ h
    · exact length_ne_output _ _ h
  | first =>
    rcases error_of_bind_eq_error h with h | ⟨v, -, h⟩
    · exact only_ne_output _ _ h
    rcases error_of_bind_eq_error h with h | ⟨_, -, h⟩
    · exact elements_ne_output _ _ _ h
    · cases h
  | last =>
    rcases error_of_bind_eq_error h with h | ⟨v, -, h⟩
    · exact only_ne_output _ _ h
    rcases error_of_bind_eq_error h with h | ⟨_, -, h⟩
    · exact elements_ne_output _ _ _ h
    · cases h
  | rest =>
    rw [call] at h
    split at h
    · next hother =>
      cases h
      rcases error_of_bind_eq_error hother with h | ⟨v, -, h⟩
      · exact only_ne_output _ _ h
      · exact elements_ne_output _ _ _ h
    · cases h
    · cases h
  | push =>
    rw [call] at h
    split at h
    · next hother =>
      cases h
      exact pushed_ne_output _ _ hother
    · cases h
  | puts =>
    induction arguments generalizing w with
    | nil => cases h
    | cons v vs ih =>
      have hline : call .puts (v :: vs) w = call .puts vs (w.write (line v)) := by
        simp only [call, writeLines, Sink.refusal?, hs.takes]
      rw [hline] at h
      exact ih (hs.write _) h

end Builtin

theorem Value.ofResult_ne_output {r : Except Fault Value} {reason : String}
    (hok : ∀ v, r = .ok v → v.Clean) (herror : r ≠ .error (.output reason)) :
    ofResult r ≠ .error (.output reason) := by
  intro h
  cases r with
  | ok v =>
    have hv : v = .error (.output reason) := h
    cases hv ▸ hok v rfl
  | error other =>
    cases h
    exact herror rfl

theorem Value.Clean.ne_output {v : Value} (h : v.Clean) (reason : String) :
    v ≠ .error (.output reason) := by
  rintro rfl
  cases h

theorem World.Clean.named_ne_output (hw : w.Clean) (scope : ScopeId) (text reason : String) :
    w.named scope text ≠ .error (.output reason) := by
  unfold World.named
  split
  · next value h => exact Value.Clean.ne_output (hw.binds.lookup h) reason
  · split <;> rintro ⟨⟩

theorem Operation.ne_output_of_begin {o : Operation} {v : Value} (ho : o.Clean)
    (hs : w.sink.Endless) (h : o.begin w = .done v w') (reason : String) :
    v ≠ .error (.output reason) := by
  have hP := Value.hereditary_clean
  cases o with
  | unary operator right =>
    cases h
    exact Value.ofResult_ne_output (fun _ => hP.unary) (Value.unary_ne_output _ _ _)
  | binary left operator right =>
    cases h
    exact Value.ofResult_ne_output (fun _ => hP.binary ho.1 ho.2) (Value.binary_ne_output _ _ _ _)
  | index collection position =>
    cases h
    exact Value.ofResult_ne_output (fun _ => hP.index ho.1) (Value.index_ne_output _ _ _)
  | branch scope test chosen other =>
    rcases begin_branch scope test chosen other w with hbegin | ⟨block, -, hbegin⟩
    · cases hbegin.symm.trans h
      rintro ⟨⟩
    · cases hbegin.symm.trans h
  | call callee arguments =>
    cases callee with
    | function identity f =>
      rw [begin] at h
      split at h <;> cases h
      rintro ⟨⟩
    | builtin b =>
      cases h
      exact Value.ofResult_ne_output (fun _ => hP.call ho.2 b) (b.call_ne_output _ hs _)
    | _ =>
      cases h
      rintro ⟨⟩
  | file scope table key value pairs =>
    simp only [begin] at h
    split at h <;> cases h
    rintro ⟨⟩
  | _ =>
    cases h
    rintro ⟨⟩

/-- With a sink that takes everything, no task is done with the fault that output was refused. -/
theorem Task.ne_output_of_begin {t : Task} {v : Value} (ht : t.Clean) (hw : w.Clean)
    (hs : w.sink.Endless) (h : t.begin w = .done v w') (reason : String) :
    v ≠ .error (.output reason) := by
  cases t with
  | expression scope e =>
    cases e with
    | name text =>
      cases h
      exact hw.named_ne_output scope text reason
    | _ =>
      cases h
      all_goals rintro ⟨⟩
  | arguments scope callee done es => cases es <;> cases h
  | elements scope done es =>
    cases es <;> cases h
    rintro ⟨⟩
  | entries scope table pairs =>
    cases pairs <;> cases h
    rintro ⟨⟩
  | statement scope s => cases s <;> cases h
  | block scope last ss =>
    cases ss <;> cases h
    exact Value.Clean.ne_output ht reason
  | operate o => exact Operation.ne_output_of_begin ht hs h reason
  | _ => cases h

namespace Machine

/-- The sink takes everything, and there is no fault that says otherwise. -/
structure Unrefused (m : Machine) : Prop where
  /-- Signals are where they belong. -/
  sound : m.Sound
  /-- The sink takes everything. -/
  sink : m.world.sink.Endless
  /-- The value is not such a fault. -/
  value : ∀ reason, m.control ≠ .value (.error (.output reason))

/-- A step offers some pieces to the sink. -/
theorem offers_step {m m' : Machine} (h : m.step = some m') :
    ∃ pieces : List ByteArray, m'.world.sink = pieces.foldl Sink.write m.world.sink := by
  by_cases hsink : m'.world.sink = m.world.sink
  · exact ⟨[], hsink⟩
  · obtain ⟨arguments, hcontrol⟩ := sink_step h hsink
    obtain ⟨control, levels, w⟩ := m
    cases hcontrol
    cases h
    exact (Builtin.call_evolves (fun _ _ => False) .puts arguments w).sink

theorem Unrefused.step {m m' : Machine} (hm : m.Unrefused) (h : m.step = some m') :
    m'.Unrefused := by
  obtain ⟨pieces, hpieces⟩ := offers_step h
  refine ⟨hm.sound.step h, by rw [hpieces]; exact (hm.sink.offer pieces).1, fun reason hv => ?_⟩
  cases turn_of_step h with
  | done move =>
    have hv := Control.value.inj hv
    exact Task.ne_output_of_begin (hm.sound.task _ rfl) hm.sound.world hm.sink move reason hv
  | pass signal => exact hm.value reason hv
  | leave =>
    have hfault := (hm.sound.value _ rfl).eq_of_delivered (Control.value.inj hv)
    exact hm.value reason (congrArg Control.value hfault)
  | _ => cases hv

end Machine

/-! ## Programs -/

/-- Let a program come to an end with a sink that takes everything. With a sink that has room for so
many bytes, it comes to the same end if it has not written more; otherwise it comes to the fault
that the sink gives a reason for, and what has been written is what there is room for. On the way
there, only `puts` writes, whatever the sink; and with the first sink, if no signal is bound, no
fault says that output was refused. -/
theorem full_sink_cuts_off {s : Sink} (hs : s.Holds room) {depth : Nat} {scope : ScopeId}
    {program : Program} {v : Value}
    (h : (Eval.program depth scope program).run (w.onto .unlimited) = some (v, w')) :
    (w'.sink.written.size ≤ room →
      ∃ s' : Sink, s'.written = w'.sink.written ∧
        (Eval.program depth scope program).run (w.onto s) = some (v, w'.onto s')) ∧
    (room < w'.sink.written.size →
      ∃ reason w'', w''.sink.written = w'.sink.written.extract 0 room ∧
        w''.sink.judge = s.judge ∧ (w.onto s).RefusedSince w'' reason ∧
        (Eval.program depth scope program).run (w.onto s) = some (.error (.output reason), w'')) ∧
    (∀ t : Sink,
      (∀ u w₁, (Eval.program depth scope program).run (w.onto t) = some (u, w₁) →
        Machine.Steps (.start scope program (w.onto t)) ⟨.value u, [], w₁⟩) ∧
      ∀ m m', Machine.Steps (.start scope program (w.onto t)) m → m.step = some m' →
        m'.world.sink ≠ m.world.sink →
          ∃ arguments, m.control = .task (.operate (.call (.builtin .puts) arguments))) ∧
    (w.Clean → ∀ m, Machine.Steps (.start scope program (w.onto .unlimited)) m →
      ∀ reason, m.control ≠ .value (.error (.output reason))) := by
  have hjudged : (w.onto .unlimited).onto ((w.onto .unlimited).sink.judgedBy s.judge) = w.onto s := by
    obtain ⟨written, offered, judge⟩ := s
    cases hs.written
    cases hs.offered
    rfl
  have hrun : ∃ v' w'', (Eval.program depth scope program).run (w.onto s) = some (v', w'') ∧
      w''.sink.judge = s.judge ∧ CutOff room s.judge (w.onto .unlimited) v w' v' w'' := by
    obtain ⟨u, hu, rfl⟩ := program_eq_some_iff.1 h
    obtain ⟨u', w'', hu', hcut⟩ := hu.cutOff hs.limits Sink.endless_unlimited (Nat.zero_le room)
    rw [hjudged] at hu'
    exact ⟨u'.delivered, w'', program_eq_some_iff.2 ⟨u', hu', rfl⟩, hu'.evolves.judge_eq,
      hcut.delivered⟩
  obtain ⟨v', w'', hrun, hjudge, hcut⟩ := hrun
  refine ⟨fun hroom => ?_, fun hroom => ?_, fun t => ⟨fun _ _ => Machine.steps_of_program,
    fun m m' _ hstep => Machine.sink_step hstep⟩, fun hw m hm => ?_⟩
  · cases hcut with
    | within _ => exact ⟨w'.sink.judgedBy s.judge, rfl, hrun⟩
    | beyond hbeyond _ _ => exact absurd hroom (Nat.not_le.2 hbeyond)
  · cases hcut with
    | within hwithin => exact absurd hroom (Nat.not_lt.2 hwithin)
    | @beyond _ reason _ hwritten refused =>
      rw [hjudged] at refused
      exact ⟨reason, w'', hwritten, hjudge, refused, hrun⟩
  · have hclean : (w.onto .unlimited).Clean := hw
    have hstart : (Machine.start scope program (w.onto .unlimited)).Unrefused :=
      ⟨Machine.sound_start hclean scope program, Sink.endless_unlimited, fun _ => by rintro ⟨⟩⟩
    have hend : m.Unrefused := hm.invariant (fun _ _ hP hstep => hP.step hstep) hstart
    exact hend.value

/-- Two texts are written, each with its line end, to a sink with room for three bytes: the fault
has the reason of the sink, and the first text and the one byte after it are all that is written. -/
theorem puts_cuts_off :
    let program : Program := [.expression (.call (.name "puts") [.string "a", .string "b"])]
    let s : Sink := .limited 3 "disk full"
    let w : World := .initial .unlimited
    s.Holds 3 ∧ w.Clean ∧ ∃ w' reason w'',
      (Eval.program 0 globalScope program).run (w.onto .unlimited) = some (.null, w') ∧
      (Eval.program 0 globalScope program).run (w.onto s) = some (.error (.output reason), w'') ∧
      3 < w'.sink.written.size ∧ w''.sink.written = w'.sink.written.extract 0 3 := by
  intro program s w
  have hs : s.Holds 3 := Sink.holds_limited 3 "disk full"
  have hw : w.Clean := Session.clean (.start : Session .unlimited _)
  obtain ⟨w', hrun, hsize⟩ : ∃ w',
      (Eval.program 0 globalScope program).run (w.onto .unlimited) = some (.null, w') ∧
        w'.sink.written.size = 4 := by
    have writes : (w.onto .unlimited).Finds "puts" globalScope none := .nowhere rfl rfl
    have run : Runs 0 (.block globalScope .null program) (w.onto .unlimited) .null
        (((w.onto .unlimited).write (Builtin.line (.string "a"))).write
          (Builtin.line (.string "b"))) :=
      .next rfl (.become rfl (.next rfl (runs_builtin writes rfl) rfl (.next rfl (.done rfl) rfl
        (.next rfl (.done rfl) rfl (.become rfl (.done rfl)))))) rfl (.done rfl)
    exact ⟨_, program_eq_some_iff.2 ⟨.null, run, rfl⟩, by decide⟩
  have hroom : 3 < w'.sink.written.size := by omega
  obtain ⟨-, hbeyond, -, -⟩ := full_sink_cuts_off hs hrun
  obtain ⟨reason, w'', hwritten, -, -, hcut⟩ := hbeyond hroom
  exact ⟨hs, hw, w', reason, w'', hrun, hcut, hroom, hwritten⟩

end Monkey
