import Cage.Core.ChildCorrect
import Cage.Sandbox.GuiInside

/-!
The arguments with which the set-up of the GUI stays in the sandbox.
-/

namespace Cage.Core

open Util Sandbox

end Cage.Core
