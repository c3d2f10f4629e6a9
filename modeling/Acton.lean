import Acton.Unify.Correctness
import Acton.Kinds.Correctness
import Acton.Subst.Capture
import Acton.Env.Castable.Correctness
import Acton.Solver.Varclose
import Acton.Solver.GroupCs
import Acton.Solver.Sub
import Acton.Solver.Cast
import Acton.Control.Flows
import Acton.Compile.BackQueue.Correctness
import Acton.Compile.DepClosure
import Acton.Backend.Skiplist.Correctness
import Acton.Backend.Db.Correctness
import Acton.Backend.Queue.Reading
import Acton.Backend.VectorClock.Merge
import Acton.Backend.HashRing.Lookup
import Acton.Backend.HashRing.Movement
import Acton.Builtin.Dict.Correctness
import Acton.Builtin.Set.Probing
import Acton.Builtin.Set.Comparing
import Acton.Builtin.List
import Acton.Builtin.Bigint
import Acton.Builtin.Str.Methods
import Acton.Builtin.StringDecoder
import Acton.Argparse.Correctness
import Acton.Net.Correctness
import Acton.File
import Acton.Json.Correctness
import Acton.Diff.Correctness
import Acton.Format.Adjacent
import Acton.Rts.Await
import Acton.Rts.Sending
