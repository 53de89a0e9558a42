import Cutout.Outlet
import Cutout.Target
/-! Outputs at work: targets with their outlets and the counts of what has been written to them. -/
namespace Cutout

structure Output where
  target : Target
  outlet : Outlet
  counts : Tally
  finished : Bool

namespace Output

def start (t : Target) : Output := ⟨t, .start t.place t.opening, .ofElements [], false⟩

def write (m : Medium) (o : Output) (e : Element) (d : Delivery) : Sent Fault Output :=
  let sent := o.outlet.putAll m (o.target.pieces e) d
  let o := { o with outlet := sent.sender }
  match sent.result with
  | .ok () => ⟨{ o with counts := o.counts.count e }, sent.delivery, .ok ()⟩
  | .error () => ⟨o, sent.delivery, .error (.outputNotWritten o.target.output)⟩

def writeAll (m : Medium) (o : Output) (elements : List Element) (d : Delivery) :
    Sent Fault Output := Sent.all (write m) o elements d

def finish (m : Medium) (o : Output) (closing : List String) (d : Delivery) : Sent Fault Output :=
  let sent := (o.outlet.putAll m closing d).andThen (Outlet.flush m)
  let o := { o with outlet := sent.sender }
  match sent.result with
  | .ok () => ⟨{ o with finished := true }, sent.delivery, .ok ()⟩
  | .error () =>
    ⟨o, sent.delivery, .error (.outputNotClosed o.target.output (.outputNotFinished o.target.output))⟩

def leave (m : Medium) (o : Output) (d : Delivery) : Delivery := (o.outlet.flush m d).delivery

def note (o : Output) : Note := o.target.written o.counts

end Output
end Cutout
