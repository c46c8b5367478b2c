import PageDesign.Command.Run

/-! # What tasks come to

A task runs on the state of a store of files: it comes to a result or a failure, and leaves a
state behind (`runIn`).  What follows a task goes on where the task left off, and a failure is
the end of it (`runIn_bind`).  So what succeeded has succeeded at every step (`runIn_bind_ok`).
-/
namespace PageDesign.Command
variable {σ α β : Type} {s s' : σ} {failure : Failure}

/-- What a task makes of the state of a store: what it comes to, and the state it leaves. -/
abbrev runIn (task : ExceptT Failure (StateM σ) α) (s : σ) : Except Failure α × σ :=
  task.run.run s

section Bind
variable {task : ExceptT Failure (StateM σ) α} {next : α → ExceptT Failure (StateM σ) β}

theorem runIn_bind (task : ExceptT Failure (StateM σ) α)
    (next : α → ExceptT Failure (StateM σ) β) (s : σ) :
    runIn (task >>= next) s =
      match runIn task s with
      | (.ok a, between) => runIn (next a) between
      | (.error failure, between) => (.error failure, between) := by
  simp only [runIn, ExceptT.run_bind, StateT.run_bind]
  rcases task.run.run s with ⟨r, between⟩
  cases r <;> rfl

theorem runIn_bind_of_ok {a : α} {between : σ} (h : runIn task s = (.ok a, between)) :
    runIn (task >>= next) s = runIn (next a) between := by
  rw [runIn_bind, h]

theorem runIn_bind_of_error {between : σ} (h : runIn task s = (.error failure, between)) :
    runIn (task >>= next) s = (.error failure, between) := by
  rw [runIn_bind, h]

/-- What succeeded has succeeded at each step. -/
theorem runIn_bind_ok {b : β} (h : runIn (task >>= next) s = (.ok b, s')) :
    ∃ a between, runIn task s = (.ok a, between) ∧ runIn (next a) between = (.ok b, s') := by
  rw [runIn_bind] at h
  split at h
  · next a between htask => exact ⟨a, between, htask, h⟩
  · cases h

end Bind

section Overcome
variable {of : Obstacle → Failure} {task : StateM σ (Except Obstacle α)}

/-- An obstacle becomes a failure. -/
theorem runIn_overcome (of : Obstacle → Failure) (task : StateM σ (Except Obstacle α)) (s : σ) :
    runIn (overcome of task) s = ((task.run s).1.mapError of, (task.run s).2) := by
  have hlift : runIn (liftM task : ExceptT Failure (StateM σ) _) s =
    (.ok (task.run s).1, (task.run s).2) := rfl
  unfold overcome
  rw [runIn_bind_of_ok hlift]
  cases (task.run s).1 <;> rfl

theorem runIn_overcome_of_ok {a : α} (h : task.run s = (.ok a, s')) :
    runIn (overcome of task) s = (.ok a, s') := by
  rw [runIn_overcome, h]
  rfl

theorem runIn_overcome_of_error {obstacle : Obstacle}
    (h : task.run s = (.error obstacle, s')) :
    runIn (overcome of task) s = (.error (of obstacle), s') := by
  rw [runIn_overcome, h]
  rfl

/-- A task that overcame its obstacles met none. -/
theorem runIn_overcome_ok {a : α} (h : runIn (overcome of task) s = (.ok a, s')) :
    task.run s = (.ok a, s') := by
  rw [runIn_overcome] at h
  rcases htask : task.run s with ⟨r, between⟩
  rw [htask] at h
  cases r <;> cases h
  rfl

end Overcome

/-! ## Loading and building -/

section Build
variable [FileStore (StateM σ)] {input source : String} {design : Design}

/-- A design that can be read is loaded. -/
theorem runIn_load
    (hread : (FileStore.read (.ofText input) : StateM σ _).run s = (.ok source, s'))
    (hdesign : Design.read source = .ok design) :
    runIn (load input) s = (.ok design.page, s') := by
  unfold load
  rw [runIn_bind_of_ok (runIn_overcome_of_ok hread), hdesign]
  rfl

/-- Once a design is loaded, a build comes to what saving its markup comes to. -/
theorem runIn_build {page : Node} (hload : runIn (load input) s = (.ok page, s'))
    (path : String) (style : Style) :
    runIn (build input (some path) style) s =
      let saved := runIn (save path (page.markup style ++ "\n")) s'
      (saved.1.map fun _ => page.markup style, saved.2) := by
  unfold build
  rw [runIn_bind_of_ok hload]
  simp only
  rw [runIn_bind]
  rcases runIn (save path (page.markup style ++ "\n")) s' with ⟨r, after⟩
  cases r <;> rfl

end Build

end PageDesign.Command
