import PolicyGates.Proofs.Scheduler.Entrants
/-!
# Schedules move by move

A schedule is a row of moves (`moves`): its jobs enrol, evaluations make their checks, and between checks something
happens.  A moment of a schedule is a place in that row, and what stood then is what the moves before it have led to
(`play`).  Every move has an effect of its own, and lets others in (`exists_effect`).  So each evaluation that runs
has been started by one of the moves, when its timer was set (`IsRegular.exists_start`), and runs until it is
concluded (`IsRegular.of_start`).
-/
namespace PolicyGates.Scheduler

/-- What can come next in a schedule. -/
inductive Move where
  | enrol
  /-- The evaluation in front makes a check. -/
  | check
  | happen (what : Happening)

def move (jobs : List Job) (s : Scheduler) : Move → Scheduler
  | .enrol => enrol jobs s
  | .check => step jobs s
  | .happen what => s.happen what

def play (jobs : List Job) (s : Scheduler) (moves : List Move) : Scheduler := moves.foldl (move jobs) s

/-! ## The moves of a schedule -/

def happenMoves (events : List Event) : List Move := events.map fun e => .happen e.happening

/-- The next checks of a turn, of which `made` have been made, each with what happens after it. -/
def checkMoves (events : List Event) (done : Nat) : Nat → Nat → List Move
  | 0, _ => []
  | n + 1, made =>
    .check :: happenMoves (events.filter (fun e => e.after = ⟨done, made + 1⟩)) ++ checkMoves events done n (made + 1)

/-- The moves of the turns from the next one on, where `done` have been taken. -/
def turnMoves (jobs : List Job) (events : List Event) : Nat → Nat → Scheduler → List Move
  | 0, _, _ => []
  | n + 1, done, s =>
    checkMoves events done s.running.length 0 ++ happenMoves (overdue events done s.running.length)
      ++ happenMoves (events.filter (fun e => e.after = (done + 1 : Nat)))
      ++ turnMoves jobs events n (done + 1) (happenings events (done + 1 : Nat) (turn jobs events done s))

/-- All moves of a schedule, in order. -/
def moves (reg : Registry) (jobs : List Job) (slots : Nat) (events : List Event) : List Move :=
  let n := turnsFor jobs.length
  happenMoves (events.filter (fun e => e.after = 0)) ++ [.enrol]
    ++ turnMoves jobs events n 0 (enrol jobs (happenings events 0 (opening reg slots)))
    ++ happenMoves (during events (fun m => !m.le n))

variable {jobs : List Job} {reg : Registry} {s s' : Scheduler} {slots : Nat} {ms : List Move} {m : Move} {n : Nat}

theorem play_append (s : Scheduler) (xs ys : List Move) : play jobs s (xs ++ ys) = play jobs (play jobs s xs) ys :=
  List.foldl_append

theorem play_concat (s : Scheduler) (ms : List Move) (m : Move) :
    play jobs s (ms ++ [m]) = move jobs (play jobs s ms) m :=
  play_append s ms [m]

theorem play_happenMoves (s : Scheduler) (events : List Event) :
    play jobs s (happenMoves events) = events.foldl (fun s e => s.happen e.happening) s := List.foldl_map

theorem play_checkMoves (events : List Event) (done n made : Nat) (s : Scheduler) :
    play jobs s (checkMoves events done n made) = checks jobs events done n made s := by
  induction n generalizing s made with
  | zero => rfl
  | succ n ih =>
    rw [checkMoves, play_append, show play jobs s (_ :: _) = play jobs (step jobs s) _ from rfl, play_happenMoves]
    exact ih (made + 1) _

theorem play_turnMoves (events : List Event) (n done : Nat) (s : Scheduler) :
    play jobs s (turnMoves jobs events n done s) = turns jobs events n done s := by
  induction n generalizing s done with
  | zero => rfl
  | succ n ih =>
    rw [turnMoves, play_append, play_append, play_append, play_checkMoves, play_happenMoves, play_happenMoves]
    exact ih (done + 1) _

/-- **A schedule comes to what its moves lead to.** -/
theorem play_moves (reg : Registry) (jobs : List Job) (slots : Nat) (events : List Event) :
    play jobs (opening reg slots) (moves reg jobs slots events) = run reg jobs slots events := by
  unfold moves
  rw [play_append, play_append, play_append, play_happenMoves, play_happenMoves]
  show List.foldl _ (play jobs (enrol jobs _) (turnMoves ..)) _ = _
  rw [show List.foldl _ (opening reg slots) _ = happenings events 0 (opening reg slots) from rfl, play_turnMoves]
  rfl

/-- The jobs enrol once, before the first check; whatever happens may happen at any time. -/
inductive IsRegular : Bool → List Move → Prop
  | opened : IsRegular false []
  | happen {enrolled : Bool} {ms : List Move} (h : IsRegular enrolled ms) (what : Happening) :
    IsRegular enrolled (ms ++ [.happen what])
  | enrol {ms : List Move} (h : IsRegular false ms) : IsRegular true (ms ++ [.enrol])
  | check {ms : List Move} (h : IsRegular true ms) : IsRegular true (ms ++ [.check])

namespace IsRegular

variable {enrolled : Bool}

theorem happens (h : IsRegular enrolled ms) (events : List Event) : IsRegular enrolled (ms ++ happenMoves events) := by
  induction events generalizing ms with
  | nil => rwa [happenMoves, List.map_nil, List.append_nil]
  | cons e rest ih =>
    have hrest := ih (h.happen e.happening)
    rwa [List.append_assoc] at hrest

theorem checks (h : IsRegular true ms) (events : List Event) (done n made : Nat) :
    IsRegular true (ms ++ checkMoves events done n made) := by
  induction n generalizing ms made with
  | zero => rwa [checkMoves, List.append_nil]
  | succ n ih =>
    have hrest := ih (h.check.happens (events.filter (fun e => e.after = ⟨done, made + 1⟩))) (made + 1)
    rwa [List.append_assoc, List.append_assoc] at hrest

theorem turns (h : IsRegular true ms) (events : List Event) (n done : Nat) (s : Scheduler) :
    IsRegular true (ms ++ turnMoves jobs events n done s) := by
  induction n generalizing ms done s with
  | zero => rwa [turnMoves, List.append_nil]
  | succ n ih =>
    rw [turnMoves, ← List.append_assoc, ← List.append_assoc, ← List.append_assoc]
    exact ih (((h.checks events done _ 0).happens _).happens _) _ _

end IsRegular

/-- **The moves of a schedule are regular.** -/
theorem isRegular_moves (reg : Registry) (jobs : List Job) (slots : Nat) (events : List Event) :
    IsRegular true (moves reg jobs slots events) :=
  (((IsRegular.opened.happens _).enrol.turns _ _ _ _).happens _)

/-- What holds at the opening and is kept by every move that may come, holds all along. -/
theorem IsRegular.induction_concat {motive : (enrolled : Bool) → (ms : List Move) → IsRegular enrolled ms → Prop}
    (nil : motive false [] .opened)
    (concat : ∀ {enrolled enrolled' ms} m (h : IsRegular enrolled ms) (h' : IsRegular enrolled' (ms ++ [m])),
      motive enrolled ms h → motive enrolled' (ms ++ [m]) h')
    {enrolled : Bool} {ms : List Move} (h : IsRegular enrolled ms) : motive enrolled ms h := by
  induction h with
  | opened => exact nil
  | happen h what ih => exact concat _ h (h.happen what) ih
  | enrol h ih => exact concat _ h h.enrol ih
  | check h ih => exact concat _ h h.check ih

/-! ## Effects -/

/-- What a move brings about before anybody comes in. -/
inductive HasEffect (jobs : List Job) (s : Scheduler) : Move → Scheduler → Prop
  | enrol : HasEffect jobs s .enrol s
  | idle (hrun : s.running = []) : HasEffect jobs s .check s
  | advanced {e : Evaluation} {rest : List Evaluation} {j : Job} {q : Progress} (hrun : s.running = e :: rest)
    (hj : jobs[e.job]? = some j)
    (hcheck : e.progress.check (s.registry.circumstances j.proposal j.mode) j.proposal.toValue e.cancellation
      = .running q) :
    HasEffect jobs s .check { s with running := rest ++ [{ e with progress := q }] }
  | concluded {e : Evaluation} {rest : List Evaluation} {j : Job} {r : Run} {b : Budget} (hrun : s.running = e :: rest)
    (hj : jobs[e.job]? = some j)
    (hcheck : e.progress.check (s.registry.circumstances j.proposal j.mode) j.proposal.toValue e.cancellation
      = .ended r b) :
    HasEffect jobs s .check
      (setConclusion { s with running := rest, registry := (s.registry.conclude j.proposal j.mode r b.spent).1 } e.job
        (s.registry.conclude j.proposal j.mode r b.spent).2)
  | happened (what : Happening) : HasEffect jobs s (.happen what) (s.happen what)

/-- **A move has its own effect and lets others in.** -/
theorem exists_effect (h : IsSound reg jobs s) (m : Move) :
    ∃ s₀, HasEffect jobs s m s₀ ∧ Admits jobs s₀ (move jobs s m) := by
  cases m with
  | enrol => exact ⟨s, .enrol, .enrol s⟩
  | happen what => exact ⟨_, .happened what, .refl _⟩
  | check =>
    show ∃ s₀, HasEffect jobs s .check s₀ ∧ Admits jobs s₀ (step jobs s)
    cases hrun : s.running with
    | nil =>
      refine ⟨s, .idle hrun, ?_⟩
      rw [step_of_idle hrun]
      exact .refl s
    | cons e rest =>
      obtain ⟨j, hj, -⟩ := h.running e (by rw [hrun]; exact List.mem_cons_self)
      rcases check_cases hrun hj with ⟨q, hcheck, hs⟩ | ⟨r, b, hcheck, hadmits⟩
      · refine ⟨_, .advanced hrun hj hcheck, ?_⟩
        rw [hs]
        exact .refl _
      · exact ⟨_, .concluded hrun hj hcheck, hadmits⟩

/-- The evaluations are of the same job, and have the same timer. -/
def IsSame (e e' : Evaluation) : Prop := e'.job = e.job ∧ e'.timer = e.timer

/-- The evaluation of the job has started and has not ended. -/
def Runs (s : Scheduler) (n : Nat) : Prop := ∃ e ∈ s.running, e.job = n

namespace HasEffect

variable {s₀ : Scheduler}

theorem conclusions (h : HasEffect jobs s m s₀) : ∃ more, s₀.conclusions = s.conclusions ++ more := by
  cases h with
  | enrol => exact ⟨[], (List.append_nil _).symm⟩
  | idle => exact ⟨[], (List.append_nil _).symm⟩
  | advanced => exact ⟨[], (List.append_nil _).symm⟩
  | concluded => exact ⟨[_], rfl⟩
  | happened what =>
    obtain ⟨-, -, hconc, -⟩ := happen_frame s what
    exact ⟨[], by rw [hconc, List.append_nil]⟩

theorem back (h : HasEffect jobs s m s₀) {e' : Evaluation} (he : e' ∈ s₀.running) : ∃ e ∈ s.running, IsSame e e' := by
  cases h with
  | enrol => exact ⟨e', he, rfl, rfl⟩
  | idle => exact ⟨e', he, rfl, rfl⟩
  | advanced hrun hj hcheck =>
    rw [hrun]
    rcases List.mem_append.1 he with he | he
    · exact ⟨e', List.mem_cons_of_mem _ he, rfl, rfl⟩
    · rw [List.mem_singleton.1 he]
      exact ⟨_, List.mem_cons_self, rfl, rfl⟩
  | concluded hrun hj hcheck =>
    rw [hrun]
    exact ⟨e', List.mem_cons_of_mem _ he, rfl, rfl⟩
  | happened what =>
    obtain ⟨f, hrun, hf⟩ := running_happen s what
    rw [hrun] at he
    obtain ⟨e, hmem, rfl⟩ := List.mem_map.1 he
    obtain ⟨c, hc⟩ := (hf e).eq
    exact ⟨e, hmem, by rw [hc], by rw [hc]⟩

theorem forth (h : HasEffect jobs s m s₀) {e : Evaluation} (he : e ∈ s.running) :
    (∃ e' ∈ s₀.running, IsSame e e') ∨ Settled s₀.conclusions e.job := by
  cases h with
  | enrol => exact .inl ⟨e, he, rfl, rfl⟩
  | idle => exact .inl ⟨e, he, rfl, rfl⟩
  | advanced hrun hj hcheck =>
    rw [hrun] at he
    rcases List.mem_cons.1 he with rfl | he
    · exact .inl ⟨_, List.mem_append_right _ List.mem_cons_self, rfl, rfl⟩
    · exact .inl ⟨e, List.mem_append_left _ he, rfl, rfl⟩
  | concluded hrun hj hcheck =>
    rw [hrun] at he
    rcases List.mem_cons.1 he with rfl | he
    · exact .inr ⟨_, List.mem_append_right _ List.mem_cons_self⟩
    · exact .inl ⟨e, he, rfl, rfl⟩
  | happened what =>
    obtain ⟨f, hrun, hf⟩ := running_happen s what
    obtain ⟨c, hc⟩ := (hf e).eq
    exact .inl ⟨f e, by rw [hrun]; exact List.mem_map_of_mem he, by rw [hc], by rw [hc]⟩

theorem delay (h : HasEffect jobs s m s₀) (hsound : IsSound reg jobs s) : s₀.registry.delay = reg.delay := by
  rw [← hsound.registry.delay]
  cases h with
  | enrol => rfl
  | idle => rfl
  | advanced => rfl
  | concluded => exact (Registry.isLater_conclude ..).delay
  | happened what => exact (happen_frame s what).2.2.2.delay

end HasEffect

theorem Settled.append {conclusions more : List (Nat × Conclusion)} (h : Settled conclusions n) :
    Settled (conclusions ++ more) n := by
  obtain ⟨c, hc⟩ := h
  exact ⟨c, List.mem_append_left _ hc⟩

theorem Admits.settled (h : Admits jobs s s') (hn : Settled s.conclusions n) : Settled s'.conclusions n := by
  obtain ⟨more, hconc, -⟩ := h.conclusions
  rw [hconc]
  exact hn.append

theorem Admits.runs (h : Admits jobs s s') (hn : Runs s n) : Runs s' n := by
  obtain ⟨entrants, hrun, -⟩ := h.running
  obtain ⟨e, he, hn⟩ := hn
  exact ⟨e, by rw [hrun]; exact List.mem_append_left _ he, hn⟩

theorem IsTidy.nodup_running (h : IsTidy jobs slots s) : (s.running.map Evaluation.job).Nodup := by
  have hnodup := ((List.nodup_append.1 ((List.nodup_append.1 h.nodup).2.1)).1)
  rwa [standings, List.map_map] at hnodup

theorem IsTidy.not_settled_of_runs (h : IsTidy jobs slots s) (hn : Runs s n) : ¬Settled s.conclusions n := by
  obtain ⟨e, he, rfl⟩ := hn
  exact h.not_settled (List.mem_append_left _ (List.mem_map.2 ⟨e.standing, List.mem_map_of_mem he, rfl⟩))

theorem Admits.of_mem (h : Admits jobs s s') (htidy : IsTidy jobs slots s') {e : Evaluation} (he : e ∈ s'.running) :
    e ∈ s.running ∨ (¬Runs s e.job ∧ ¬Settled s.conclusions e.job ∧ ∃ j, jobs[e.job]? = some j
      ∧ e = s.entrant e.job j) := by
  obtain ⟨entrants, hrun, hentrants⟩ := h.running
  have hopen := htidy.not_settled_of_runs ⟨e, he, rfl⟩
  have hnodup := htidy.nodup_running
  rw [hrun] at he hnodup
  rw [List.map_append] at hnodup
  rcases List.mem_append.1 he with he | he
  · exact .inl he
  · refine .inr ⟨?_, fun hc => hopen (h.settled hc), hentrants e he⟩
    rintro ⟨e', he', hsame⟩
    exact (List.nodup_append.1 hnodup).2.2 _ (List.mem_map_of_mem he') _ (List.mem_map_of_mem he) hsame

/-! ## What holds along a schedule -/

theorem IsSound.play (h : IsSound reg jobs s) (ms : List Move) : IsSound reg jobs (play jobs s ms) := by
  refine List.foldlRecOn ms _ h fun s hs m _ => ?_
  cases m with
  | enrol => exact hs.enrol
  | check => exact hs.step
  | happen what => exact hs.happen what

theorem exists_same_or_settled (h : IsSound reg jobs s) {e : Evaluation} (he : e ∈ s.running) (m : Move) :
    (∃ e' ∈ (move jobs s m).running, IsSame e e') ∨ Settled (move jobs s m).conclusions e.job := by
  obtain ⟨s₀, heffect, hadmits⟩ := exists_effect h m
  obtain ⟨entrants, hrun, -⟩ := hadmits.running
  rcases heffect.forth he with ⟨e', he', hsame⟩ | hsettled
  · exact .inl ⟨e', by rw [hrun]; exact List.mem_append_left _ he', hsame⟩
  · exact .inr (hadmits.settled hsettled)

/-- **Who has been concluded stays so**, whatever comes. -/
theorem conclusions_play (h : IsSound reg jobs s) (ms : List Move) :
    ∃ more, (play jobs s ms).conclusions = s.conclusions ++ more := by
  induction ms generalizing s with
  | nil => exact ⟨[], (List.append_nil _).symm⟩
  | cons m rest ih =>
    obtain ⟨s₀, heffect, hadmits⟩ := exists_effect h m
    obtain ⟨more, hmore⟩ := heffect.conclusions
    obtain ⟨failures, hfailures, -⟩ := hadmits.conclusions
    obtain ⟨later, hlater⟩ := ih (h.play [m])
    refine ⟨more ++ (failures ++ later), ?_⟩
    show (play jobs (move jobs s m) rest).conclusions = _
    rw [show play jobs s [m] = move jobs s m from rfl] at hlater
    rw [hlater, hfailures, hmore, List.append_assoc, List.append_assoc]

/-- **Who runs goes on until it is concluded.** -/
theorem runs_or_settled_play (h : IsSound reg jobs s) (hn : Runs s n) (ms : List Move) :
    Runs (play jobs s ms) n ∨ Settled (play jobs s ms).conclusions n := by
  induction ms generalizing s with
  | nil => exact .inl hn
  | cons m rest ih =>
    obtain ⟨e, he, rfl⟩ := hn
    have hnext : IsSound reg jobs (move jobs s m) := h.play [m]
    show Runs (play jobs (move jobs s m) rest) e.job ∨ Settled (play jobs (move jobs s m) rest).conclusions e.job
    rcases exists_same_or_settled h he m with ⟨e', he', hsame, -⟩ | hsettled
    · exact ih hnext ⟨e', he', hsame⟩
    · obtain ⟨more, hmore⟩ := conclusions_play hnext rest
      exact .inr (by rw [hmore]; exact hsettled.append)

namespace IsRegular

variable {enrolled : Bool} (hearlier : AwaitEarlier jobs)
include hearlier

theorem keeps (h : IsRegular enrolled ms) (reg : Registry) (slots : Nat) :
    (enrolled = false → IsEnrolling jobs slots 0 (play jobs (opening reg slots) ms))
    ∧ (enrolled = true → IsOrderly jobs slots (play jobs (opening reg slots) ms)) := by
  induction h with
  | opened => exact ⟨fun _ => isEnrolling_opening reg slots, nofun⟩
  | happen h what ih =>
    rw [play_concat]
    exact ⟨fun he => (ih.1 he).happen what, fun he => (ih.2 he).happen what⟩
  | enrol h ih =>
    rw [play_concat]
    exact ⟨nofun, fun _ => isOrderly_enrol (ih.1 rfl)⟩
  | check h ih =>
    rw [play_concat]
    exact ⟨nofun, fun _ => (ih.2 rfl).step hearlier⟩

theorem isTidy (h : IsRegular enrolled ms) (reg : Registry) (slots : Nat) :
    IsTidy jobs slots (play jobs (opening reg slots) ms) := by
  obtain ⟨henrolling, horderly⟩ := h.keeps hearlier reg slots
  cases enrolled with
  | false => exact (henrolling rfl).tidy
  | true => exact (horderly rfl).tidy

end IsRegular

/-! ## Timers -/

/-- The evaluation of the job is started by one of the moves, at the given time. -/
def StartsAt (jobs : List Job) (s : Scheduler) (ms : List Move) (n : Nat) (time : Float) : Prop :=
  ∃ before m after, ms = before ++ m :: after ∧ ¬Runs (play jobs s before) n ∧ Runs (play jobs s (before ++ [m])) n
    ∧ (play jobs s (before ++ [m])).registry.elapsed = time

theorem StartsAt.concat {time : Float} (h : StartsAt jobs s ms n time) (m : Move) :
    StartsAt jobs s (ms ++ [m]) n time := by
  obtain ⟨before, m', after, rfl, hstart⟩ := h
  exact ⟨before, m', after ++ [m], by rw [List.append_assoc]; rfl, hstart⟩

/-- The timer of a job whose evaluation started at the given time. -/
def timerOf (reg : Registry) (j : Job) (time : Float) : Option Timer :=
  j.limit.map fun l => ⟨time + reg.delay l.ms, l.given⟩

theorem same_or_starts (h : IsSound reg jobs s) (htidy : IsTidy jobs slots (move jobs s m)) {e : Evaluation}
    (he : e ∈ (move jobs s m).running) : (∃ e₁ ∈ s.running, IsSame e₁ e)
      ∨ (¬Runs s e.job ∧ ∃ j, jobs[e.job]? = some j ∧ e.timer = timerOf reg j (move jobs s m).registry.elapsed) := by
  obtain ⟨s₀, heffect, hadmits⟩ := exists_effect h m
  rcases hadmits.of_mem htidy he with he | ⟨hnot, hopen, j, hj, hentrant⟩
  · exact .inl (heffect.back he)
  · refine .inr ⟨?_, j, hj, ?_⟩
    · rintro ⟨e₁, he₁, hsame⟩
      rcases heffect.forth he₁ with ⟨e₂, he₂, hjob, -⟩ | hsettled
      · exact hnot ⟨e₂, he₂, hjob.trans hsame⟩
      · exact hopen (hsame ▸ hsettled)
    · rw [hentrant, hadmits.registry, timerOf, ← heffect.delay h]
      rfl

section Timers

variable {enrolled : Bool} (hearlier : AwaitEarlier jobs)
include hearlier

/-- **Whoever runs has been started by one of the moves**, and its timer was set then. -/
theorem IsRegular.exists_start (h : IsRegular enrolled ms) (reg : Registry) (slots : Nat) {e : Evaluation}
    (he : e ∈ (play jobs (opening reg slots) ms).running) :
    ∃ j time, jobs[e.job]? = some j ∧ StartsAt jobs (opening reg slots) ms e.job time
      ∧ e.timer = timerOf reg j time := by
  induction h using induction_concat generalizing e with
  | nil => cases he
  | @concat _ _ ms m h h' ih =>
    have htidy := h'.isTidy hearlier reg slots
    rw [play_concat] at htidy he
    rcases same_or_starts ((isSound_opening slots).play ms) htidy he with
      ⟨e₁, he₁, hjob, htimer⟩ | ⟨hnot, j, hj, htimer⟩
    · obtain ⟨j, time, hj, hstart, htimer₁⟩ := ih he₁
      rw [hjob]
      exact ⟨j, time, hj, hstart.concat m, htimer.trans htimer₁⟩
    · refine ⟨j, _, hj, ⟨ms, m, [], rfl, hnot, ?_, rfl⟩, ?_⟩
      · rw [play_concat]
        exact ⟨e, he, rfl⟩
      · rw [play_concat]
        exact htimer

/-- **Whoever has been started runs until it is concluded**, and its timer stays as it was set. -/
theorem IsRegular.of_start (h : IsRegular enrolled ms) (reg : Registry) (slots : Nat) {n : Nat} {time : Float}
    (hstart : StartsAt jobs (opening reg slots) ms n time) :
    Settled (play jobs (opening reg slots) ms).conclusions n
    ∨ ∃ e ∈ (play jobs (opening reg slots) ms).running, e.job = n ∧ ∃ j, jobs[n]? = some j
      ∧ e.timer = timerOf reg j time := by
  induction h using induction_concat with
  | nil =>
    obtain ⟨before, m, after, hsplit, -⟩ := hstart
    simp at hsplit
  | @concat _ _ ms m h h' ih =>
    have hsound : IsSound reg jobs (play jobs (opening reg slots) ms) := (isSound_opening slots).play ms
    have htidy := h'.isTidy hearlier reg slots
    obtain ⟨before, m', after, hsplit, hnot, hruns, htime⟩ := hstart
    rcases split_concat hsplit with ⟨rfl, rfl, rfl⟩ | ⟨after', rfl, rfl⟩
    · obtain ⟨e, he, rfl⟩ := hruns
      rw [play_concat] at htidy he htime ⊢
      rcases same_or_starts hsound htidy he with ⟨e₁, he₁, hjob, -⟩ | ⟨-, j, hj, htimer⟩
      · exact absurd ⟨e₁, he₁, hjob.symm⟩ hnot
      · exact .inr ⟨e, he, rfl, j, hj, htime ▸ htimer⟩
    · rw [play_concat]
      rcases ih ⟨before, m', after', rfl, hnot, hruns, htime⟩ with hsettled | ⟨e, he, rfl, j, hj, htimer⟩
      · obtain ⟨more, hmore⟩ := conclusions_play hsound [m]
        rw [show play jobs _ [m] = move jobs _ m from rfl] at hmore
        exact .inl (by rw [hmore]; exact hsettled.append)
      · rcases exists_same_or_settled hsound he m with ⟨e', he', hjob, htimer'⟩ | hsettled
        · exact .inr ⟨e', he', hjob, j, hj, htimer'.trans htimer⟩
        · exact .inl hsettled

end Timers

end PolicyGates.Scheduler
