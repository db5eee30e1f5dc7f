import TaskLunev.ProxyTurns

/-!
# Where a call of `SendFile` can return

A call can come back in the middle of a pass, between two channels, between a
read and the write to standard output that follows it, or in the loop that
drains a channel, when a part of the bytes has gone out and the channel still
counts them. The states it leaves behind are followed here through the text of
the loop: what every turn keeps holds after a return of 0, and something weaker
after an error.
-/
namespace TaskLunev.ProxyReturns
open ByteMemory ProxyModel ProxyTurns ExceptRules

section
variable {σ α : Type} {Q W : σ → Prop} {P R : α → Prop}

/-- If the computation returns, then in a state with `W`, and with `Q` when it
returns 0. -/
def Leaves (Q W : σ → Prop) : Stop σ → Prop
  | .returned code s => W s ∧ (code = 0 → Q s)
  | .outside => True
  | .starved => True

/-- The same, and nothing outside the block is touched. -/
def Keeps (Q W : σ → Prop) : Stop σ → Prop
  | .returned code s => W s ∧ (code = 0 → Q s)
  | .outside => False
  | .starved => True

variable {total : ℕ}

end

section
variable {last total : ℕ} {s : State last total} {e : Pass last} {i : Fin (last + 1)}
  {Q W : State last total → Prop}

/-- The state between a read and the write to standard output that fails. -/
def ReadOnly (e : Pass last) (i : Fin (last + 1)) (s t : State last total) : Prop :=
  ∃ offered m', e.reads i = some offered ∧
    writeBytes s.totalBuffer (s.channels i).mBuf.toNat
      (offered.take (sizeT (s.channels i).mCapacity)) = some m' ∧
    t = s.received i m' (offered.take (sizeT (s.channels i).mCapacity))

/-- What holds after every turn also holds, in the weaker form, when some of the
bytes of a channel are out and the channel does not know it. -/
structure Weakens (Q W : State last total → Prop) : Prop where
  weaken : ∀ t, Q t → W t
  size_nonneg : ∀ t, Q t → ∀ j, 0 ≤ (t.channels j).mSize
  sent : ∀ t, Q t → ∀ (c : Fin last) sent, sent <+: slice t.totalBuffer
    (t.channels c.castSucc).mCurPos.toNat (t.channels c.castSucc).mSize.toNat →
      W (t.sent c.succ sent)

/-- An error return in a state between two steps. -/
theorem Weakens.failed (h : Weakens Q W) (hs : Q s) : Leaves Q W (.returned (-1) s) :=
  ⟨h.weaken s hs, fun _ => hs⟩

end

end TaskLunev.ProxyReturns
