/-! What holds of the values that come of a computation, whatever its effects. -/
namespace PolicyShell

variable {m : Type → Type} [Monad m] {α β : Type}

/-- Whatever comes of a computation is so. -/
def Certain (holds : α → Prop) (computation : m α) : Prop :=
  ∃ certified : m {value // holds value}, Subtype.val <$> certified = computation

namespace Certain

variable [LawfulMonad m] {first : α → Prop} {holds : β → Prop} {computation : m α}

theorem returns {value : β} (satisfied : holds value) : Certain holds (pure value : m β) :=
  ⟨pure ⟨value, satisfied⟩, map_pure ..⟩

theorem anything (computation : m α) : Certain (fun _ => True) computation :=
  ⟨(fun value => ⟨value, trivial⟩) <$> computation, by rw [Functor.map_map]; exact id_map _⟩

theorem mono (certain : Certain first computation) {weaker : α → Prop}
    (implies : ∀ value, first value → weaker value) : Certain weaker computation := by
  obtain ⟨certified, whole⟩ := certain
  refine ⟨(fun value => ⟨value.val, implies _ value.property⟩) <$> certified, ?_⟩
  rw [← whole, Functor.map_map]

theorem bind (certain : Certain first computation) {next : α → m β}
    (later : ∀ value, first value → Certain holds (next value)) :
    Certain holds (computation >>= next) := by
  obtain ⟨certified, whole⟩ := certain
  have goOn (value : {value // first value}) : Certain holds (next value.val) :=
    later value.val value.property
  refine ⟨certified >>= fun value => (goOn value).choose, ?_⟩
  rw [← whole, bind_map_left, map_bind]
  exact bind_congr fun value => (goOn value).choose_spec

/-- What follows need only be the same for the values that there can be. -/
theorem congr (certain : Certain first computation) {next next' : α → m β}
    (same : ∀ value, first value → next value = next' value) :
    computation >>= next = computation >>= next' := by
  obtain ⟨certified, whole⟩ := certain
  rw [← whole, bind_map_left, bind_map_left]
  exact bind_congr fun value => same value.val value.property

theorem map {change : α → β} (certain : Certain (fun value => holds (change value)) computation) :
    Certain holds (change <$> computation) := by
  rw [map_eq_pure_bind]
  exact certain.bind fun value satisfied => returns satisfied

theorem foldlM {step : α → β → m α} (each : ∀ value item, first value →
    Certain first (step value item)) (items : List β) {value : α} (begins : first value) :
    Certain first (items.foldlM step value) := by
  induction items generalizing value with
  | nil => exact returns begins
  | cons item rest ih => exact (each value item begins).bind fun after satisfied => ih satisfied

end Certain

end PolicyShell
