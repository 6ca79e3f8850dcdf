import Mathlib.Data.List.Induction
import AbstractBits.CommandLine.Run
import AbstractBits.Proofs.Text.Digits
/-!
# The configuration across runs

A run whose arguments are accepted leaves a configuration behind, with the number of sampling rounds
that it was told or else with the one that it found. What the run shows does not depend on that
number, because only value sets are sampled in rounds and no operand is one. How arguments are read
is left open, and so is how the configuration is kept; a text file is one way.

Results:
  * `lawful_inState` — a text file keeps the configuration.
  * `Command.answer_eq` — commands do not depend on the number of sampling rounds.
  * `run_eq`, `runs_eq` — what one run, and what several runs, show and leave behind.
  * `getD_left_foldl` — the number of sampling rounds after several runs is the last one that was
    set.
  * `configuration_after_runs` — both together, for runs that start without a configuration.
-/

namespace AbstractBits

variable {D : Type} {configs : ConfigStore (StateM D)} {Keeps : D → Option Config → Prop} {d d' : D}
  {read : List String → Option Request} {args : List String} {runs : List (List String)}
  {requests : List (Option Request)} {stored : Option Config} {c : Config}

/-! ## Keeping a configuration -/

/-- A store that keeps one configuration at most. `Keeps` says in which states it keeps which one,
and in which states there is none. -/
structure ConfigStore.Lawful (configs : ConfigStore (StateM D)) (Keeps : D → Option Config → Prop) :
    Prop where
  /-- Loading creates the default configuration if there is none. -/
  load_none {d : D} (h : Keeps d none) :
    ∃ d', configs.load.run.run d = (.ok .default, d') ∧ Keeps d' (some .default)
  load_some {d : D} {c : Config} (h : Keeps d (some c)) :
    ∃ d', configs.load.run.run d = (.ok c, d') ∧ Keeps d' (some c)
  /-- Storing puts a configuration that can be written in place of the one before. -/
  store {d : D} {stored : Option Config} {c : Config} (h : Keeps d stored)
      (hc : c.sampleRounds < Config.storedLimit) :
    ∃ d', (configs.store c).run.run d = (.ok (), d') ∧ Keeps d' (some c)

/-- A step, and what is done with its result. -/
theorem run_bind_eq {α β : Type} {x : StateM D α} {f : α → StateM D β} {a : α}
    (h : x.run d = (a, d')) : (x >>= f).run d = (f a).run d' := by
  rw [StateT.run_bind, h]
  rfl

/-- A step that succeeds, and what is done with its result. -/
theorem run_bind_ok {ε α β : Type} {x : ExceptT ε (StateM D) α} {f : α → ExceptT ε (StateM D) β}
    {a : α} (h : x.run.run d = (.ok a, d')) : (x >>= f).run.run d = (f a).run.run d' := by
  rw [ExceptT.run_bind, run_bind_eq h]

namespace Config

/-- The text of a configuration is read back. -/
theorem ofText?_text (hc : c.sampleRounds < storedLimit) : ofText? c.text = some c := by
  have hdigits : Numeral.Digits 10 (Nat.toDigits 10 c.sampleRounds) c.sampleRounds :=
    Numeral.digits_toDigits (by decide) (by decide) c.sampleRounds
  have hlist : c.text.toList = key.toList ++ (Nat.toDigits 10 c.sampleRounds ++ ['\n']) := by
    simp [text, Nat.toList_repr]
  have hprefix :
      key.toList.isPrefixOf (key.toList ++ (Nat.toDigits 10 c.sampleRounds ++ ['\n'])) = true :=
    List.isPrefixOf_iff_prefix.2 (List.prefix_append _ _)
  have hline : (Nat.toDigits 10 c.sampleRounds ++ ['\n']).takeWhile (· != '\n') =
      Nat.toDigits 10 c.sampleRounds := by
    have hdigit : ∀ a ∈ Nat.toDigits 10 c.sampleRounds, (a != '\n') = true := by
      intro a ha
      obtain ⟨d, hd⟩ := hdigits.of_mem ha
      rw [bne_iff_ne]
      rintro rfl
      cases hd
    rw [List.takeWhile_append_of_pos hdigit]
    exact List.append_nil _
  have hread : Numeral.read 10 storedLimit (Nat.toDigits 10 c.sampleRounds) = .ok c.sampleRounds :=
    (Numeral.read_eq_ok_iff (by decide) (twoPow_pos 63)).2 ⟨.inl hdigits, hc⟩
  rw [ofText?, hlist, if_pos hprefix]
  simp only [List.drop_left, hline, hread]
  rfl

/-- What a file keeps: nothing if there is none. -/
def InFile (file : Option String) (stored : Option Config) : Prop :=
  file.map ofText? = stored.map some

end Config

/-- A text file keeps the configuration. -/
theorem lawful_inState : ConfigStore.inState.Lawful Config.InFile where
  load_none := by
    intro file h
    obtain rfl : file = none := by simpa [Config.InFile] using h
    exact ⟨some Config.default.text, rfl, congrArg some (Config.ofText?_text (by decide))⟩
  load_some := by
    intro file c h
    obtain ⟨text, rfl, hread⟩ : ∃ text, file = some text ∧ Config.ofText? text = some c := by
      simpa [Config.InFile] using h
    have hget :
        (liftM (get : StateM (Option String) (Option String)) :
            ExceptT CommandError (StateM (Option String)) (Option String)).run.run (some text) =
          (.ok (some text), some text) := rfl
    refine ⟨some text, ?_, h⟩
    unfold ConfigStore.inState ConfigStore.ofFile
    dsimp only
    rw [run_bind_ok hget]
    simp only [Option.bind_some, hread]
    rfl
  store := by
    intro file stored c h hc
    refine ⟨some c.text, ?_, congrArg some (Config.ofText?_text hc)⟩
    unfold ConfigStore.inState ConfigStore.ofFile
    dsimp only
    rw [if_pos hc]
    rfl

/-! ## Commands -/

/-- What a command shows. -/
def Command.outcome (command : Command) : Outcome :=
  .ofAnswer (command.answer Config.default.sampleRounds)

/-- Commands do not depend on the number of sampling rounds: intervals are not sampled in rounds. -/
theorem Command.answer_eq (command : Command) (rounds : Nat) :
    command.answer rounds = command.answer Config.default.sampleRounds := by
  cases command <;> rfl

/-! ## One run -/

namespace Request

/-- Whether arguments are accepted, and ask for a command. -/
def Accepted (request : Option Request) : Prop :=
  ∃ rounds command, request = some (.command rounds command)

/-- The number of sampling rounds that is set. -/
def rounds? : Option Request → Option Nat
  | some (.command rounds _) => rounds
  | _ => none

/-- What a run shows. -/
def outcome : Option Request → Outcome
  | none => .refused
  | some .version => .version
  | some (.command _ c) => c.outcome

/-- What is stored after a run. -/
def left (stored : Option Config) (request : Option Request) : Option Config :=
  match request with
  | some (.command rounds _) => some (rounds.elim (stored.getD .default) Config.mk)
  | _ => stored

end Request

theorem ConfigStore.Lawful.load_eq (lawful : configs.Lawful Keeps) (hd : Keeps d stored) :
    ∃ d', configs.load.run.run d = (.ok (stored.getD .default), d') ∧
      Keeps d' (some (stored.getD .default)) := by
  cases stored with
  | none => exact lawful.load_none hd
  | some c => exact lawful.load_some hd

/-- The configuration of a run is the stored one, or the one with the number of sampling rounds that
is set. -/
theorem ConfigStore.Lawful.update_eq (lawful : configs.Lawful Keeps) (hd : Keeps d stored)
    {rounds : Option Nat} (hrounds : ∀ n ∈ rounds, n < Config.storedLimit) :
    ∃ d',
      (configs.update rounds).run.run d =
        (.ok (rounds.elim (stored.getD .default) Config.mk), d') ∧
      Keeps d' (some (rounds.elim (stored.getD .default) Config.mk)) := by
  obtain ⟨loaded, hload, hkeeps⟩ := lawful.load_eq hd
  unfold update
  rw [run_bind_ok hload]
  cases rounds with
  | none => exact ⟨loaded, rfl, hkeeps⟩
  | some n =>
    dsimp only [Option.elim_some]
    by_cases heq : (⟨n⟩ : Config) = stored.getD .default
    · rw [if_neg (not_not_intro heq)]
      exact ⟨loaded, rfl, heq ▸ hkeeps⟩
    · obtain ⟨left, hstore, hleft⟩ := lawful.store (c := ⟨n⟩) hkeeps (hrounds n rfl)
      rw [if_pos heq, run_bind_ok hstore]
      exact ⟨left, rfl, hleft⟩

/-- What a run shows and leaves behind. -/
theorem run_eq (lawful : configs.Lawful Keeps) (hd : Keeps d stored)
    (hrounds : ∀ n ∈ Request.rounds? (read args), n < Config.storedLimit) :
    ∃ d', (run read configs args).run d = (Request.outcome (read args), d') ∧
      Keeps d' (Request.left stored (read args)) := by
  unfold run
  generalize read args = request at hrounds ⊢
  match request with
  | none => exact ⟨d, rfl, hd⟩
  | some .version => exact ⟨d, rfl, hd⟩
  | some (.command rounds command) =>
    have hset : ∀ n ∈ rounds, n < Config.storedLimit := hrounds
    obtain ⟨d', hupdate, hkeeps⟩ := lawful.update_eq hd hset
    refine ⟨d', ?_, hkeeps⟩
    have hanswer : (ExceptT.run do
        let config ← configs.update rounds
        command.answer config.sampleRounds).run d =
          (command.answer Config.default.sampleRounds, d') := by
      rw [run_bind_ok hupdate, command.answer_eq]
      rfl
    exact run_bind_eq hanswer

/-! ## Several runs -/

theorem runs_eq (lawful : configs.Lawful Keeps) (hd : Keeps d stored)
    (hrounds : ∀ args ∈ runs, ∀ n ∈ Request.rounds? (read args), n < Config.storedLimit) :
    ∃ d',
      (runs.mapM (run read configs)).run d =
        (runs.map fun args => Request.outcome (read args), d') ∧
      Keeps d' ((runs.map read).foldl Request.left stored) := by
  induction runs generalizing d stored with
  | nil => exact ⟨d, rfl, hd⟩
  | cons args runs ih =>
    obtain ⟨d₁, hrun, hkeeps⟩ := run_eq lawful hd (hrounds args List.mem_cons_self)
    obtain ⟨d₂, hruns, hkeeps⟩ :=
      ih hkeeps fun args hargs => hrounds args (List.mem_cons_of_mem _ hargs)
    refine ⟨d₂, ?_, hkeeps⟩
    rw [List.mapM_cons, run_bind_eq hrun, run_bind_eq hruns]
    rfl

/-- Without accepted arguments nothing is stored. -/
theorem left_foldl_of_refused (h : ∀ request ∈ requests, ¬Request.Accepted request) :
    requests.foldl Request.left stored = stored := by
  induction requests with
  | nil => rfl
  | cons request requests ih =>
    have hleft : Request.left stored request = stored := by
      match request with
      | none | some .version => rfl
      | some (.command rounds command) =>
        exact absurd ⟨rounds, command, rfl⟩ (h _ List.mem_cons_self)
    rw [List.foldl_cons, hleft,
      ih fun request hrequest => h request (List.mem_cons_of_mem _ hrequest)]

/-- Accepted arguments leave a configuration, which later runs do not take away. -/
theorem isSome_left_foldl (h : ∃ request ∈ requests, Request.Accepted request) :
    (requests.foldl Request.left stored).isSome := by
  induction requests using List.reverseRecOn with
  | nil => simp at h
  | append_singleton requests request ih =>
    rw [List.foldl_append, List.foldl_cons, List.foldl_nil]
    match request with
    | some (.command _ _) => rfl
    | none | some .version =>
      refine ih ?_
      obtain ⟨request, hrequest, haccepted⟩ := h
      rcases List.mem_append.1 hrequest with hmem | hlast
      · exact ⟨request, hmem, haccepted⟩
      · obtain rfl := List.mem_singleton.1 hlast
        obtain ⟨rounds, command, hcommand⟩ := haccepted
        cases hcommand

/-- What is loaded after several runs has the number of sampling rounds that was set last. -/
theorem getD_left_foldl (requests : List (Option Request)) (stored : Option Config) :
    (requests.foldl Request.left stored).getD .default =
      ((requests.filterMap Request.rounds?).getLast?.map Config.mk).getD
        (stored.getD .default) := by
  induction requests using List.reverseRecOn with
  | nil => rfl
  | append_singleton requests request ih =>
    rw [List.foldl_append, List.foldl_cons, List.foldl_nil, List.filterMap_append]
    match request with
    | none | some .version | some (.command none _) =>
      simpa [Request.left, Request.rounds?] using ih
    | some (.command (some n) _) => simp [Request.left, Request.rounds?]

/-- Runs that start without a configuration leave none behind if no arguments were accepted, and
otherwise one with the number of sampling rounds that was set last, or with 16. What a run shows is
determined by its own command. -/
theorem configuration_after_runs (lawful : configs.Lawful Keeps) (hstart : Keeps d none)
    (hrounds : ∀ args ∈ runs, ∀ n ∈ Request.rounds? (read args), n < Config.storedLimit) :
    ∃ (outcomes : List Outcome) (d' : D), (runs.mapM (run read configs)).run d = (outcomes, d') ∧
      ((∀ args ∈ runs, ¬Request.Accepted (read args)) → Keeps d' none) ∧
      ((∃ args ∈ runs, Request.Accepted (read args)) →
        Keeps d'
          (some ⟨(runs.filterMap fun args => Request.rounds? (read args)).getLast?.getD 16⟩)) ∧
      ∀ (i : Nat) args rounds command, runs[i]? = some args →
        read args = some (.command rounds command) → outcomes[i]? = some command.outcome := by
  obtain ⟨d', hruns, hkeeps⟩ := runs_eq lawful hstart hrounds
  refine ⟨_, d', hruns, ?_, ?_, ?_⟩
  · intro hrefused
    rwa [left_foldl_of_refused (by simpa using hrefused)] at hkeeps
  · intro haccepted
    have hsome : ((runs.map read).foldl Request.left none).isSome :=
      isSome_left_foldl (by simpa using haccepted)
    obtain ⟨c, hc⟩ := Option.isSome_iff_exists.1 hsome
    have hloaded := getD_left_foldl (runs.map read) none
    rw [hc, List.filterMap_map] at hloaded
    have hsample :
        c = ⟨(runs.filterMap fun args => Request.rounds? (read args)).getLast?.getD 16⟩ :=
      hloaded.trans (Option.getD_map Config.mk 16 _)
    rwa [hc, hsample] at hkeeps
  · intro i args rounds command hargs hread
    simp [hargs, hread, Request.outcome]

/-- Runs that set the number of sampling rounds twice, the second time with crossed bounds in an
operand. After them there is a run whose arguments are refused, and one that sets nothing. -/
def setTwice : List (List String) :=
  [["--version"], ["--sample-rounds", "5", "bounds", "8:0..3"],
    ["--sample-rounds=7", "join", "8:9..1", "8:0"], ["bounds"], ["sample", "8:0..3/2"]]

/-- The failed run sets the number all the same. -/
theorem failed_run_sets_rounds :
    ∃ outcomes file, (setTwice.mapM (run Request.read .inState)).run none = (outcomes, file) ∧
      Config.InFile file (some ⟨7⟩) ∧
      outcomes[2]? = some ⟨1, "", some "Error: lower bound 0x9 exceeds upper bound 0x1\n"⟩ ∧
      outcomes[4]? = some ⟨0, "0x0 0x2\n", none⟩ := by
  have hrounds :
      ∀ args ∈ setTwice, ∀ n ∈ Request.rounds? (Request.read args), n < Config.storedLimit := by
    decide +kernel
  have hnone : Config.InFile none none := rfl
  obtain ⟨outcomes, file, hruns, -, hkept, hshown⟩ :=
    configuration_after_runs lawful_inState hnone hrounds
  have hread :
      Request.read ["sample", "8:0..3/2"] = some (.command none (.sample "8:0..3/2" 8)) := by
    decide +kernel
  have hfailed : Request.read ["--sample-rounds=7", "join", "8:9..1", "8:0"] =
      some (.command (some 7) (.join "8:9..1" "8:0")) := by decide +kernel
  have hlast :
      (setTwice.filterMap fun args => Request.rounds? (Request.read args)).getLast?.getD 16 =
      7 := by
    decide +kernel
  have hfile := hkept ⟨["sample", "8:0..3/2"], by decide, _, _, hread⟩
  rw [hlast] at hfile
  exact ⟨outcomes, file, hruns, hfile, hshown 2 _ _ _ rfl hfailed, hshown 4 _ _ _ rfl hread⟩

end AbstractBits
