/-! Progress bar over a run that reads its input several times. Numbers of bytes have 64 bits and
wrap around. -/
namespace Cutout

structure Progress where
  total : Nat
  finished : Nat
  current : Nat
  drawn : Option Nat
  enabled : Bool
  visible : Bool
  deriving DecidableEq, Repr

namespace Progress

def start (total : Nat) (enabled : Bool) : Progress :=
  ⟨total, 0, 0, none, enabled && total ≠ 0, false⟩

def wrapped (n : Nat) : Nat := n % 1 <<< 64

def percent (p : Progress) : Nat :=
  if p.total = 0 then 0
  else wrapped (min (wrapped (p.finished + p.current)) p.total * 100) / p.total

def cells : Nat := 20

def chars (n : Nat) (c : Char) : String := String.ofList (List.replicate n c)

def bar (percent : Nat) : String :=
  let filled := percent / 5
  let text := toString percent
  "\r[" ++ chars filled '=' ++ chars (cells - filled) ' ' ++ "] " ++ chars (3 - text.length) ' ' ++
    text ++ "%"

def update (p : Progress) (offset : Nat) : Progress × String :=
  let p := { p with current := offset }
  if p.enabled && p.drawn != some p.percent then
    ({ p with drawn := some p.percent, visible := true }, bar p.percent)
  else (p, "")

def fileDone (p : Progress) (size : Nat) : Progress × String :=
  let p := { p with finished := wrapped (p.finished + size), current := 0 }
  if p.enabled then ({ p with visible := true }, bar p.percent) else (p, "")

def remove (p : Progress) : Progress × String :=
  if p.visible then ({ p with visible := false }, "\r" ++ chars 40 ' ' ++ "\r") else (p, "")

def done (p : Progress) : Progress × String :=
  if p.enabled then ({ p with visible := false }, bar 100 ++ "\n") else (p, "")

end Progress
end Cutout
